import Mathlib.Data.List.Basic
import Mathlib.Algebra.GroupWithZero.Nat
import Mathlib.Algebra.Group.Int.Defs

/-!
# Strings as UTF-8 bytes
-/

namespace String

/-- `str::as_bytes`. -/
def asBytes (s : String) : List UInt8 :=
  s.toByteArray.data.toList

/-- `core::str::from_utf8`. -/
def ofBytes? (bs : List UInt8) : Option String :=
  String.fromUTF8? bs.toByteArray

theorem asBytes_injective : Function.Injective asBytes := by
  intro s t eq
  apply toByteArray_inj.mp
  exact ByteArray.ext (Array.toList_inj.mp eq)

@[simp] theorem ofBytes?_asBytes (s : String) : ofBytes? s.asBytes = some s := by
  have bytes : s.asBytes.toByteArray = s.toByteArray := by
    apply ByteArray.ext
    rw [List.data_toByteArray]
    rfl
  unfold ofBytes? fromUTF8?
  rw [bytes, dif_pos s.isValidUTF8]
  rfl

theorem asBytes_of_ofBytes? {bs : List UInt8} {s : String} (h : ofBytes? bs = some s) : s.asBytes = bs := by
  unfold ofBytes? fromUTF8? at h
  split at h
  next valid =>
    obtain rfl := Option.some.inj h
    change bs.toByteArray.data.toList = bs
    rw [List.data_toByteArray]
  next => cases h

end String
