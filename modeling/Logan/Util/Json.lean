import Mathlib.Tactic

/-!
# JSON values

A document that has been parsed is a value. A number is one of three kinds, and
only one of them is an unsigned integer. The fields of an object have different
names, and are in the order of the names.
-/

namespace Logan

namespace Json

/-- **A number**: an integer that is not negative, or one that is, or the bits of a floating point
number. -/
inductive Number where
  | posInt (n : UInt64)
  | negInt (n : Int64)
  | float (bits : UInt64)
deriving DecidableEq

/-- **A value.** -/
inductive Value where
  | null
  | bool (b : Bool)
  | number (n : Number)
  | string (s : String)
  | array (values : List Value)
  | object (fields : List (String × Value))

/-- **An object at the top of a document.** -/
structure Object where
  fields : List (String × Value)
  distinct : (fields.map Prod.fst).Nodup

namespace Value

/-- `as_object` -/
def asObject : Value → Option (List (String × Value))
  | object fields => some fields
  | _ => none

/-- `as_array` -/
def asArray : Value → Option (List Value)
  | array values => some values
  | _ => none

/-- `as_str` -/
def asStr : Value → Option String
  | string s => some s
  | _ => none

/-- `as_u64` -/
def asU64 : Value → Option UInt64
  | number (.posInt n) => some n
  | _ => none

theorem asObject_eq_some {v : Value} {fields : List (String × Value)} :
    v.asObject = some fields ↔ v = object fields := by
  cases v with
  | object => exact ⟨fun h => congrArg object (Option.some.inj h), fun h => congrArg asObject h⟩
  | _ => exact iff_of_false nofun nofun

theorem asArray_eq_some {v : Value} {values : List Value} :
    v.asArray = some values ↔ v = array values := by
  cases v with
  | array => exact ⟨fun h => congrArg array (Option.some.inj h), fun h => congrArg asArray h⟩
  | _ => exact iff_of_false nofun nofun

theorem asStr_eq_some {v : Value} {s : String} : v.asStr = some s ↔ v = string s := by
  cases v with
  | string => exact ⟨fun h => congrArg string (Option.some.inj h), fun h => congrArg asStr h⟩
  | _ => exact iff_of_false nofun nofun

theorem asU64_eq_some {v : Value} {n : UInt64} : v.asU64 = some n ↔ v = number (.posInt n) := by
  cases v with
  | number k =>
    cases k with
    | posInt =>
      exact ⟨fun h => congrArg (fun n => number (.posInt n)) (Option.some.inj h),
        fun h => congrArg asU64 h⟩
    | _ => exact iff_of_false nofun nofun
  | _ => exact iff_of_false nofun nofun

theorem forall₂_asU64 {values : List Value} {ns : List UInt64} :
    List.Forall₂ (fun v n => v.asU64 = some n) values ns
      ↔ values = ns.map fun n => number (.posInt n) := by
  simp only [asU64_eq_some]
  rw [← List.forall₂_eq_eq_eq, List.forall₂_map_right_iff]

end Value

end Json

end Logan
