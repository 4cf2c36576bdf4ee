import Mathlib.Data.List.Basic

/-!
# Texts as UTF-8 bytes

Decoding accepts the encodings of texts and nothing else, and an ASCII character
stands in a text exactly where its byte stands in the encoding.
-/

namespace Utf8

def encode (t : List Char) : List UInt8 := t.flatMap String.utf8EncodeChar

def decode (bs : List UInt8) : Option (List Char) :=
  bs.toByteArray.utf8Decode?.map Array.toList

theorem toByteArray_encode (t : List Char) : (encode t).toByteArray = t.utf8Encode := rfl

@[simp] theorem encode_nil : encode [] = [] := rfl

theorem encode_cons (c : Char) (t : List Char) :
    encode (c :: t) = String.utf8EncodeChar c ++ encode t := rfl

theorem encode_append (s t : List Char) : encode (s ++ t) = encode s ++ encode t := by
  simp [encode]

@[simp] theorem decode_encode (t : List Char) : decode (encode t) = some t := by
  simp [decode, toByteArray_encode]

theorem encode_of_decode (h : decode bs = some t) : encode t = bs := by
  obtain ⟨a, ha, rfl⟩ := Option.map_eq_some_iff.1 h
  have hsome : bs.toByteArray.utf8Decode?.isSome := by rw [ha]; rfl
  have henc : (bs.toByteArray.utf8Decode?.get hsome).toList.utf8Encode = bs.toByteArray :=
    ByteArray.utf8Encode_get_utf8Decode?
  rw [← List.toByteArray_inj, toByteArray_encode, ← henc]
  simp [ha]

theorem decode_eq_some_iff : decode bs = some t ↔ bs = encode t :=
  ⟨fun h => (encode_of_decode h).symm, fun h => h ▸ decode_encode t⟩

theorem encode_injective (h : encode s = encode t) : s = t := by
  have hd : decode (encode s) = some t := by rw [h]; exact decode_encode t
  rw [decode_encode] at hd
  exact Option.some.inj hd

theorem encode_ne_nil (h : t ≠ []) : encode t ≠ [] := by
  intro hnil
  exact h (encode_injective (s := t) (t := []) hnil)

theorem length_le_encode (t : List Char) : t.length ≤ (encode t).length := by
  induction t with
  | nil => exact Nat.le_refl 0
  | cons c t ih =>
    have hc : 0 < (String.utf8EncodeChar c).length := List.length_pos_iff.2 String.utf8EncodeChar_ne_nil
    rw [encode_cons, List.length_append, List.length_cons]
    omega

/-- A character below 128 is one byte of its own value. -/
theorem encode_ascii (c : Char) (h : c.val ≤ 127) : String.utf8EncodeChar c = [c.toUInt8] :=
  String.utf8EncodeChar_eq_singleton (Char.utf8Size_eq_one_iff.2 h)

theorem encode_of_ascii (h : ∀ c ∈ t, c.val ≤ 127) : encode t = t.map Char.toUInt8 := by
  induction t with
  | nil => rfl
  | cons c t ih =>
    obtain ⟨hc, ht⟩ := List.forall_mem_cons.1 h
    rw [encode_cons, encode_ascii c hc, ih ht]
    rfl

theorem ofNat_ge {n : Nat} (h1 : 0x80 ≤ n) (h2 : n < 256) : ¬ UInt8.ofNat n < 0x80 := by
  rw [UInt8.lt_iff_toNat_lt, UInt8.toNat_ofNat_of_lt' h2]
  exact Nat.not_lt.mpr h1

/-- Beyond ASCII every byte has its high bit set. -/
theorem high_bytes {c : Char} (h : 0x7f < c.toNat) :
    ∀ b ∈ String.utf8EncodeChar c, ¬ b < 0x80 := by
  have hc : ¬ c.val.toNat ≤ 0x7f := Nat.not_le.mpr h
  have htop : ∀ n, n % 0x40 + 0x80 < 256 := fun n => by omega
  unfold String.utf8EncodeChar
  simp only [if_neg hc]
  split
  · rintro b (_ | ⟨_, _ | ⟨_, ⟨⟩⟩⟩)
    · exact ofNat_ge (by omega) (by omega)
    · exact ofNat_ge (Nat.le_add_left _ _) (htop _)
  · split
    · rintro b (_ | ⟨_, _ | ⟨_, _ | ⟨_, ⟨⟩⟩⟩⟩)
      · exact ofNat_ge (by omega) (by omega)
      · exact ofNat_ge (Nat.le_add_left _ _) (htop _)
      · exact ofNat_ge (Nat.le_add_left _ _) (htop _)
    · rintro b (_ | ⟨_, _ | ⟨_, _ | ⟨_, _ | ⟨_, ⟨⟩⟩⟩⟩⟩)
      · exact ofNat_ge (by omega) (by omega)
      · exact ofNat_ge (Nat.le_add_left _ _) (htop _)
      · exact ofNat_ge (Nat.le_add_left _ _) (htop _)
      · exact ofNat_ge (Nat.le_add_left _ _) (htop _)

theorem byte_mem_encode (ha : c.val ≤ 127) (h : c ∈ t) : c.toUInt8 ∈ encode t := by
  refine List.mem_flatMap.2 ⟨c, h, ?_⟩
  rw [encode_ascii c ha]
  exact List.mem_singleton_self _

end Utf8
