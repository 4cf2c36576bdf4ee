import UrWeb.Mono.Walk

/-!
# Caching of query results

The pass `sqlcache`: every outermost query is wrapped in a look-up and a store of
its cache, and before every DML command the caches of the tables that its text
names are flushed.
-/

namespace UrWeb.Mono.Sqlcache

/-- The Unicode tables of Rust's strings. Lowering looks at the whole string. -/
structure CaseTables where
  toUppercase : Char → List Char
  toLowercase : List Char → List Char
  isAlphanumeric : Char → Bool

/-- The tables on ASCII, where they are those of Unicode. -/
def CaseTables.ascii : CaseTables where
  toUppercase c := [c.toUpper]
  toLowercase := List.map Char.toLower
  isAlphanumeric := Char.isAlphanum

def stringTyp : Typ := .string

def optionStringTyp : Typ := .option stringTyp

-- ---------------------------------------------------------------------------
-- Table names in DML text
-- ---------------------------------------------------------------------------

/-- `str::find`: the byte offset of the first occurrence. -/
def find (pat : List Char) : List Char → Option Nat
  | [] => if pat = [] then some 0 else none
  | c :: s => if pat.isPrefixOf (c :: s) then some 0 else (find pat s).map (· + c.utf8Size)

/-- `&s[n..]`, which panics outside the string and inside a character. -/
def dropBytes : Nat → List Char → Option (List Char)
  | 0, s => some s
  | _, [] => none
  | n, c :: s => if c.utf8Size ≤ n then dropBytes (n - c.utf8Size) s else none

def patterns : List (String × Nat) :=
  [("INSERT INTO ", 12), ("INSERT OR REPLACE INTO ", 23), ("DELETE FROM ", 12), ("UPDATE ", 7)]

section
variable (u : CaseTables)

/-- The loop over the patterns, each looked up in the upper-case text and its
offset used in the text itself. -/
def tryPatterns (s upper : List Char) : List (String × Nat) → Option (Option String)
  | [] => some none
  | (pat, skip) :: rest =>
    match find pat.toList upper with
    | none => tryPatterns s upper rest
    | some pos => do
      let tail ← dropBytes (pos + skip) s
      let name := tail.takeWhile fun c => u.isAlphanumeric c || c = '_'
      if name = [] then tryPatterns s upper rest
      else some (some (String.ofList (u.toLowercase name)))

def extractDmlTable (s : String) : Option (Option String) :=
  tryPatterns u s.toList (s.toList.flatMap u.toUppercase) patterns

mutual
/-- `dml_tables_collect`. -/
def dmlTables : Exp → Option (List String)
  | .prim (.string _ s) => (extractDmlTable u s).map Option.toList
  | .dml inner _ => dmlTables inner
  | .app e1 e2 | .strcat e1 e2 | .letIn _ _ e1 e2 => do
    let ts1 ← dmlTables e1
    let ts2 ← dmlTables e2
    some (ts1 ++ ts2)
  | .ffiApp _ _ args => dmlTablesArgs args
  | _ => some []
def dmlTablesArgs : List (Exp × Typ) → Option (List String)
  | [] => some []
  | (e, _) :: args => do
    let ts1 ← dmlTables e
    let ts2 ← dmlTablesArgs args
    some (ts1 ++ ts2)
end

end

-- ---------------------------------------------------------------------------
-- Phase 1: look-ups and stores around queries
-- ---------------------------------------------------------------------------

structure CacheSlot where
  index : Nat
  tables : List String
  freeLevels : List Nat

structure CachingState where
  nextIndex : Nat
  slots : List CacheSlot

def cacheCall (name : String) (i : Nat) (args : List (Exp × Typ)) : Exp :=
  .ffiApp "Sqlcache" (name ++ toString i) args

/-- The variables of a query, as this pass collects them: a body counts as under no
binders of its own. -/
def queryKeys (query : Exp) : List Nat := freeVars 0 query

/-- The node that stands for a cached query. -/
def cachedQuery (i : Nat) (free : List Nat) (state : Typ) (query : Exp) : Exp :=
  let keyArgs := free.map fun v => (Exp.rel v, stringTyp)
  let storeArgs := (Exp.uurlify (.rel 0) state false, stringTyp) ::
    free.map fun v => (Exp.rel (v + 1), stringTyp)
  let noneBranch := Exp.letIn "result" state query (.seq (cacheCall "store" i storeArgs) (.rel 0))
  let someBranch := Exp.uurlify (.rel 0) state true
  .case (cacheCall "check" i keyArgs)
    [(.none optionStringTyp, noneBranch), (.some stringTyp (.var "s" stringTyp), someBranch)]
    ⟨optionStringTyp, state⟩

def wrapQueryWithCache (qm : QueryTypes) (query body initial : Exp) : Pass CachingState Exp :=
  fun st =>
    let e := Exp.query qm query body initial
    let slot : CacheSlot := ⟨st.nextIndex, qm.tables.map Prod.fst, queryKeys e⟩
    some (cachedQuery st.nextIndex slot.freeLevels qm.state e, ⟨st.nextIndex + 1, st.slots ++ [slot]⟩)

def stopAtQuery : Exp → Option (Pass CachingState Exp)
  | .query qm query body initial => some (wrapQueryWithCache qm query body initial)
  | _ => none

def phase1Exp (e : Exp) : Pass CachingState Exp :=
  e.walk (fun _ _ _ => ()) (fun _ => stopAtQuery) (fun _ _ e' => pure e') ()

-- ---------------------------------------------------------------------------
-- Phase 2: flushes before DML
-- ---------------------------------------------------------------------------

def makeFlushCall (slot : CacheSlot) (depth : Nat) : Exp :=
  cacheCall "flush" slot.index
    (slot.freeLevels.map fun v => (.some stringTyp (.rel (v + depth)), optionStringTyp))

section
variable (u : CaseTables) (slots : List CacheSlot)

/-- `table_to_caches`: the caches that read a table. -/
def tableToCaches (t : String) : List Nat :=
  slots.flatMap fun slot => (slot.tables.filter (· = t)).map fun _ => slot.index

/-- The caches to flush for the tables, each once. -/
def flushIndices (tables : List String) : List Nat :=
  tables.foldl (fun acc t => (tableToCaches slots t).foldl
    (fun acc ci => if ci ∈ acc then acc else acc ++ [ci]) acc) []

/-- `slot_map.get`: a later slot of the same index replaces an earlier one. -/
def slotOf (ci : Nat) : Option CacheSlot := slots.reverse.find? fun slot => slot.index = ci

def prependFlush (ci : Nat) (acc : Exp) : Exp :=
  match slotOf slots ci with
  | some slot => .seq (makeFlushCall slot 0) acc
  | none => acc

/-- What becomes of a node once its parts are instrumented. -/
def flushDml : Exp → Exp → Pass Unit Exp
  | .dml inner _, e', st => do
    let tables ← dmlTables u inner
    some ((flushIndices slots tables).foldr (prependFlush slots) e', st)
  | _, e', st => some (e', st)

def phase2Exp (e : Exp) : Pass Unit Exp :=
  e.walk (fun _ _ _ => ()) (fun _ _ => none) (fun _ => flushDml u slots) ()

end

-- ---------------------------------------------------------------------------
-- Declarations
-- ---------------------------------------------------------------------------

section
variable {σ : Type} (f : Exp → Pass σ Exp)

def bindingNode (vi : ValBinding) : Pass σ ValBinding := do
  let e ← f vi.e
  return { vi with e := e }

def policyNode : Policy → Pass σ Policy
  | .client e => do return .client (← f e)
  | .insert e => do return .insert (← f e)
  | .delete e => do return .delete (← f e)
  | .update e => do return .update (← f e)
  | .sequence e => do return .sequence (← f e)

/-- `phase1_decl_node` and `phase2_decl_node`: views are not among what they walk. -/
def declNode : Decl → Pass σ Decl
  | .val vi => do return .val (← bindingNode f vi)
  | .valRec vis => do return .valRec (← vis.mapM (bindingNode f))
  | .table nm xts pe ce => do return .table nm xts (← f pe) (← f ce)
  | .task e1 e2 => do return .task (← f e1) (← f e2)
  | .policy pol => do return .policy (← policyNode f pol)
  | d => return d

end

/-- The pass; it gives no file where the compiler panics. -/
def go (u : CaseTables) (sqlcache : Bool) (file : File) : Option File :=
  if !sqlcache then some file
  else do
    let (decls, st) ← (file.1.mapM (declNode phase1Exp)).run ⟨0, []⟩
    let (decls, _) ← (decls.mapM (declNode (phase2Exp u st.slots))).run ()
    return (decls, file.2)

end UrWeb.Mono.Sqlcache
