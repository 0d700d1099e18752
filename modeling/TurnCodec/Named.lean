/-! Tags: finite types whose members each have a name on the wire. Distinct
members have distinct names, so `parse?` undoes `name` and accepts nothing
else. -/

namespace TurnCodec

class Named (α : Type) where
  /-- The members, in declaration order. -/
  all : List α
  name : α → String
  mem_all : ∀ a, a ∈ all
  name_injective : ∀ a b, name a = name b → a = b

namespace Named

def parse? (α : Type) [Named α] (s : String) : Option α :=
  (all : List α).find? (name · == s)

/-- The name of the member at a position, for positions that may lie outside. -/
def nameAt (α : Type) [Named α] (i : Nat) : String :=
  match (all : List α)[i]? with
  | some a => name a
  | none => "unknown"

def position {α : Type} [Named α] (a : α) : Nat :=
  (all : List α).findIdx (name · == name a)

variable {α : Type} [Named α]

theorem parse?_name (a : α) : parse? α (name a) = some a := by
  unfold parse?
  cases h : (all : List α).find? (name · == name a) with
  | none => simpa using List.find?_eq_none.1 h a (mem_all a)
  | some b => exact congrArg some (name_injective b a (by simpa using List.find?_some h))

theorem parse?_eq_some_iff {s : String} {a : α} : parse? α s = some a ↔ s = name a := by
  constructor
  · intro h
    unfold parse? at h
    have hb : (name a == s) = true := List.find?_some (p := fun b => name b == s) h
    exact (beq_iff_eq.1 hb).symm
  · rintro rfl
    exact parse?_name a

theorem getElem?_position (a : α) : (all : List α)[position a]? = some a := by
  have hlt : position a < (all : List α).length :=
    List.findIdx_lt_length_of_exists ⟨a, mem_all a, beq_self_eq_true (name a)⟩
  have hname : (name (all : List α)[position a] == name a) = true :=
    List.findIdx_getElem (p := fun b => name b == name a)
  rw [List.getElem?_eq_getElem hlt, name_injective _ a (beq_iff_eq.1 hname)]

theorem position_injective {a b : α} (h : position a = position b) : a = b := by
  have ha := getElem?_position a
  rw [h, getElem?_position b] at ha
  exact (Option.some.inj ha).symm

end Named

end TurnCodec
