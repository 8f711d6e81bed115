import Logan.Util.Table

/-!
# Typed monotonic identifiers

The scheduler core is single-owner, so allocating an identifier is reading a
plain counter and advancing it. The four identifier types are kept apart, as
the source's `typed_id!` keeps them apart; each is a wrapper around a
counter value. The source advances the counters by a plain `+= 1` on a `u64`;
here they are natural numbers, since a scheduler that has handed out `2 ^ 64`
identifiers is not something a run reaches.
-/

namespace Logan

/-- A session: one engine sequence of steps (e.g. one decode). -/
structure SessionId where
  val : ℕ
deriving DecidableEq

/-- One submitted action; affects live state at most once. -/
structure Ticket where
  val : ℕ
deriving DecidableEq

/-- One physical expert/resource load key. -/
structure LoadId where
  val : ℕ
deriving DecidableEq

/-- A resource generation; in-flight work pins exact versions. -/
structure Generation where
  val : ℕ
deriving DecidableEq

theorem Ticket.val_injective : Function.Injective Ticket.val :=
  fun a b h => by cases a; cases b; exact congrArg Ticket.mk h

theorem Generation.val_injective : Function.Injective Generation.val :=
  fun a b h => by cases a; cases b; exact congrArg Generation.mk h

/-- Tickets are ordered as they were issued. -/
instance : PartialOrder Ticket := PartialOrder.lift Ticket.val Ticket.val_injective

/-- Generations are ordered as they were published. -/
instance : PartialOrder Generation := PartialOrder.lift Generation.val Generation.val_injective

/-- `fmt::Display` of a typed identifier, which is also its `Debug` text. -/
def SessionId.toText (id : SessionId) : String := "SessionId(" ++ toString id.val ++ ")"

/-- `fmt::Display` of a typed identifier, which is also its `Debug` text. -/
def Ticket.toText (id : Ticket) : String := "Ticket(" ++ toString id.val ++ ")"

end Logan
