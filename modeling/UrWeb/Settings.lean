import Mathlib.Data.Finset.Basic

/-!
# Compiler settings

The part of the settings that the modelled checks read: what is known about
foreign names, and which pages may write although they are reached by GET.
-/

namespace UrWeb

/-- A foreign name: the module and the name in it. -/
abbrev Ffi := String × String

structure Settings where
  clientToServer : Finset Ffi
  effectful : Finset Ffi
  clientOnly : Finset Ffi
  safeGetDefault : Bool
  safeGets : Finset String

namespace Settings

variable (settings : Settings)

def mayClientToServer (ffi : Ffi) : Bool := ffi ∈ settings.clientToServer

def isEffectful (ffi : Ffi) : Bool := ffi.1 = "Sqlcache" ∨ ffi ∈ settings.effectful

def isClientOnly (ffi : Ffi) : Bool := ffi ∈ settings.clientOnly

def isSafeGet (path : String) : Bool := settings.safeGetDefault ∨ path ∈ settings.safeGets

end Settings

end UrWeb
