import Logan.Util.Fields

/-!
# Reading a package

What all readers of the package format share: the error they return, and the
fields that they read from a buffer.
-/

namespace Logan

/-- `FormatError` -/
inductive FormatError where
  | invalid (message : String)
  | io (path : String)
deriving DecidableEq

namespace Format

open Result

/-- `usage` -/
def usage (detail : String) : FormatError := .invalid detail

/-- The error of `invalid`. -/
def invalid (detail : String) : FormatError := usage ("invalid COLI package: " ++ detail)

def u16At (bytes : List UInt8) (offset : ℕ) : Except FormatError UInt16 :=
  okOr (u16At? bytes offset) (usage "truncated COLI structure")

def u32At (bytes : List UInt8) (offset : ℕ) : Except FormatError UInt32 :=
  okOr (u32At? bytes offset) (usage "truncated COLI structure")

/-- A signed word, by its bits. -/
def i32At (bytes : List UInt8) (offset : ℕ) : Except FormatError UInt32 :=
  okOr (u32At? bytes offset) (usage "truncated COLI structure")

def u64At (bytes : List UInt8) (offset : ℕ) : Except FormatError UInt64 :=
  okOr (u64At? bytes offset) (usage "truncated COLI structure")

/-! ## Which fields can be read -/

variable {bytes : List UInt8} {offset : ℕ}

theorem exists_u16At (h : offset + 2 ≤ bytes.length) :
    ∃ x, u16At bytes offset = .ok x :=
  ⟨_, okOr_eq_ok.mpr (by rw [u16At?, range?_of_le (Nat.le_add_right _ _) h]; rfl)⟩

theorem exists_u32At (h : offset + 4 ≤ bytes.length) :
    ∃ x, u32At bytes offset = .ok x :=
  ⟨_, okOr_eq_ok.mpr (by rw [u32At?, range?_of_le (Nat.le_add_right _ _) h]; rfl)⟩

theorem exists_u64At (h : offset + 8 ≤ bytes.length) :
    ∃ x, u64At bytes offset = .ok x :=
  ⟨_, okOr_eq_ok.mpr (by rw [u64At?, range?_of_le (Nat.le_add_right _ _) h]; rfl)⟩

theorem le_of_u32At {x : UInt32}
    (h : u32At bytes offset = .ok x) : offset + 4 ≤ bytes.length := by
  obtain ⟨v, hv, -⟩ := Option.map_eq_some_iff.mp (okOr_eq_ok.mp h)
  exact (range?_eq_some.mp hv).2.1

end Format

end Logan
