import TurnCodec.Cbor.Builder
import TurnCodec.Proofs.Validation
import TurnCodec.Proofs.Wire.Contents
import TurnCodec.Proofs.Wire.Layout
import TurnCodec.Response.Equality
/-! The arguments of one tool call. In a response they can be replaced and nothing else with
them; on the wire they are the text at one place, and the tree around it stays. -/

namespace TurnCodec

open Bearing

section
variable {E : Type}

def Payload.arguments? : Payload E → Option String
  | toolCall c => some c.arguments
  | _ => none

/-- The tool call with other arguments; no other payload changes. -/
def Payload.withArguments (s : String) : Payload E → Payload E
  | toolCall c => toolCall { c with arguments := s }
  | p => p

def Block.arguments? (b : Block E) : Option String := b.payload.bind (·.arguments?)

def Block.withArguments (s : String) (b : Block E) : Block E :=
  { b with payload := b.payload.map (·.withArguments s) }

/-- The arguments of the tool call at position `i`, if there is one. -/
def Response.arguments? (i : Nat) (r : Response E) : Option String := r.blocks[i]?.bind (·.arguments?)

def Response.withArguments (i : Nat) (s : String) (r : Response E) : Response E :=
  { r with blocks := r.blocks.modify i (·.withArguments s) }

end

/-- Where the arguments of the tool call at position `i` are on the wire. -/
def Response.argumentsAt (i : Nat) : Tree.Place := [.field "blocks", .item i, .field "tool_call", .field "arguments"]

section
variable {α β : Type} {f : α → α} {g : β → β} {h : α → β}

theorem map_modify (hfg : ∀ x, h (f x) = g (h x)) (xs : List α) (i : Nat) :
    (xs.modify i f).map h = (xs.map h).modify i g := by
  apply List.ext_getElem?
  intro j
  simp only [List.getElem?_map, List.getElem?_modify]
  cases xs[j]? with
  | none => rfl
  | some x => by_cases hij : i = j <;> simp [hij, hfg]

theorem map_modify_same (hf : ∀ x, h (f x) = h x) (xs : List α) (i : Nat) : (xs.modify i f).map h = xs.map h := by
  rw [map_modify (g := id) hf, List.modify_id]

theorem flatMap_modify_same {h : α → List β} (hf : ∀ x, h (f x) = h x) (xs : List α) (i : Nat) :
    (xs.modify i f).flatMap h = xs.flatMap h := by
  rw [List.flatMap_def, List.flatMap_def, map_modify_same hf]

end

section
variable {E E' : Type} (s : String) (f : String → E → E')

theorem Payload.map_withArguments (p : Payload E) : map f (p.withArguments s) = (map f p).withArguments s := by
  cases p <;> rfl

theorem Payload.extras_withArguments (p : Payload E) : extras (p.withArguments s) = extras p := by
  cases p <;> rfl

theorem Payload.schemas_withArguments (p : Payload E) : (p.withArguments s).schemas = p.schemas := by
  cases p <;> rfl

theorem Block.map_withArguments (b : Block E) : map f (b.withArguments s) = (map f b).withArguments s := by
  obtain ⟨type, payload⟩ := b
  cases payload with
  | none => rfl
  | some held => exact congrArg (fun p => Block.mk type (some p)) (held.map_withArguments s f)

theorem Block.extras_withArguments (b : Block E) : extras (b.withArguments s) = extras b := by
  obtain ⟨type, payload⟩ := b
  cases payload with
  | none => rfl
  | some held => exact congrArg (· ++ []) (held.extras_withArguments s)

theorem Block.validate_withArguments (b : Block E) : (b.withArguments s).validate = b.validate := by
  obtain ⟨type, payload⟩ := b
  cases payload with
  | none => rfl
  | some held => cases held <;> rfl

theorem Response.map_withArguments (i : Nat) (r : Response E) :
    map f (r.withArguments i s) = (map f r).withArguments i s :=
  congrArg (fun bs => Response.mk r.id r.finish r.usage bs) (map_modify (Block.map_withArguments s f) r.blocks i)

theorem Response.extras_withArguments (i : Nat) (r : Response E) : extras (r.withArguments i s) = extras r :=
  flatMap_modify_same (Block.extras_withArguments s) r.blocks i

theorem Response.schemas_withArguments (i : Nat) (r : Response E) : (r.withArguments i s).schemas = r.schemas := by
  refine flatMap_modify_same (fun b => ?_) r.blocks i
  cases hb : b.payload <;> simp [Block.withArguments, hb, Payload.schemas_withArguments]

theorem Response.validate_withArguments (i : Nat) (r : Response E) : (r.withArguments i s).validate = r.validate :=
  Block.validateFrom_congr 0 (map_modify_same (Block.validate_withArguments s) r.blocks i)

theorem Block.arguments?_withArguments (b : Block E) :
    (b.withArguments s).arguments? = b.arguments?.map fun _ => s := by
  obtain ⟨type, payload⟩ := b
  cases payload with
  | none => rfl
  | some held => cases held <;> rfl

theorem Response.arguments?_withArguments (i : Nat) (r : Response E) :
    (r.withArguments i s).arguments? i = (r.arguments? i).map fun _ => s := by
  change ((r.blocks.modify i _)[i]?).bind _ = _
  rw [List.getElem?_modify, arguments?]
  cases r.blocks[i]? with
  | none => rfl
  | some b =>
    simp only [if_true, Option.map_eq_map, Option.map_some, Option.bind_some]
    exact b.arguments?_withArguments s

end

/-! ### On the wire -/

theorem putEntry_head {α : Type} (key : String) (v u : α) (es : List (String × α)) :
    putEntry key v ((key, u) :: es) = (key, v) :: es := by
  simp [putEntry]

theorem Tree.edit_head (f : Tree → Tree) (key : String) (place : Place) (t : Tree) (fields : List (String × Tree)) :
    (object ((key, t) :: fields)).edit f (.field key :: place) = .object ((key, t.edit f place) :: fields) := by
  simp [edit, putEntry_head]

theorem Tree.edit_array (f : Tree → Tree) (i : Nat) (place : Place) (items : List Tree) :
    (array items).edit f (.item i :: place) = .array (items.modify i (edit f place)) := by
  rw [edit, List.modify_eq_set_getElem?]
  cases items[i]? <;> rfl

theorem Payload.find?_layout (p : Payload Tree) (type : Tree) :
    (Tree.object [(p.type.name, p.layout), ("type", type)]).find? [.field "tool_call", .field "arguments"] =
      p.arguments?.map .text := by
  cases p <;> rfl

theorem Block.find?_layout (b : Block Tree) :
    b.layout.find? [.field "tool_call", .field "arguments"] = b.arguments?.map .text := by
  obtain ⟨type, payload⟩ := b
  cases payload with
  | none => rfl
  | some held => exact held.find?_layout _

theorem Block.edit_layout (b : Block Tree) (s : String) :
    b.layout.edit (fun _ => .text s) [.field "tool_call", .field "arguments"] = (b.withArguments s).layout := by
  obtain ⟨type, payload⟩ := b
  cases payload with
  | none => rfl
  | some held =>
    cases held with
    | toolCall c =>
      change (Tree.object (("tool_call", .object (("arguments", _) :: _)) :: _)).edit _ _ = _
      rw [Tree.edit_head, Tree.edit_head]
      rfl
    | _ => rfl

theorem Response.find?_layout (r : Response Tree) (i : Nat) :
    r.layout.find? (argumentsAt i) = (r.arguments? i).map .text := by
  change ((r.blocks.map (·.layout))[i]?.bind _) = _
  rw [List.getElem?_map, arguments?]
  cases r.blocks[i]? with
  | none => rfl
  | some b => exact b.find?_layout

theorem Response.edit_layout (r : Response Tree) (i : Nat) (s : String) :
    r.layout.edit (fun _ => .text s) (argumentsAt i) = (r.withArguments i s).layout := by
  change (Tree.object (("blocks", .array (r.blocks.map (·.layout))) :: _)).edit _ _ = _
  rw [argumentsAt, Tree.edit_head, Tree.edit_array, ← map_modify fun b => (b.edit_layout s).symm]
  rfl

theorem Response.traverse_withArguments {ε E E' : Type} [Inhabited E'] (f : String → E → Except ε E') (i : Nat)
    (s : String) (r : Response E) : (r.withArguments i s).traverse f = withArguments i s <$> r.traverse f := by
  change visit f (r.withArguments i s) = _ <$> visit f r
  rw [visit_eq, visit_eq, extras_withArguments, map_withArguments]
  cases check f (extras r) <;> rfl

section
variable {E E' : Type}

theorem Payload.arguments?_map (f : String → E → E') (p : Payload E) : (map f p).arguments? = p.arguments? := by
  cases p <;> rfl

theorem Block.arguments?_map (f : String → E → E') (b : Block E) : (map f b).arguments? = b.arguments? := by
  obtain ⟨type, payload⟩ := b
  cases payload with
  | none => rfl
  | some held => exact held.arguments?_map f

theorem Response.arguments?_map (f : String → E → E') (i : Nat) (r : Response E) :
    (map f r).arguments? i = r.arguments? i := by
  change (r.blocks.map (map f))[i]?.bind _ = _
  rw [List.getElem?_map, arguments?]
  cases r.blocks[i]? with
  | none => rfl
  | some b => exact b.arguments?_map f

end

namespace Response

variable {F : TypeFamily} {R : Registry F} {r : Response (Extension F)} {w : Tree}

theorem supplied_withArguments (i : Nat) (s : String) (r : Response (Extension F)) :
    (r.withArguments i s).supplied = r.supplied := by
  rw [supplied, supplied, extras_withArguments, schemas_withArguments]

/-- What stands at the place of the arguments is their text. -/
theorem find?_toWire (h : r.toWire R = .ok w) (i : Nat) : w.find? (argumentsAt i) = (r.arguments? i).map .text := by
  obtain ⟨t, ht, rfl⟩ := map_eq_ok.1 h
  obtain ⟨-, rfl⟩ := (visit_eq_ok (X := Response)).1 ht
  rw [find?_layout, arguments?_map]

/-- Other arguments are written as the same tree with another text at their place. -/
theorem toWire_withArguments (h : r.toWire R = .ok w) (i : Nat) (s : String) :
    (r.withArguments i s).toWire R = .ok (w.edit (fun _ => .text s) (argumentsAt i)) := by
  obtain ⟨t, ht, rfl⟩ := map_eq_ok.1 h
  rw [toWire, traverse_withArguments, ht, edit_layout]
  rfl

/-- Another text at the place of the arguments is read as other arguments. -/
theorem ofWire_edit (h : r.toWire R = .ok w) (i : Nat) (s : String) :
    ofWire R (w.edit (fun _ => .text s) (argumentsAt i)) = withArguments i s <$> ofWire R w := by
  obtain ⟨t, ht, rfl⟩ := map_eq_ok.1 h
  rw [ofWire, ofWire, edit_layout, readWire_layout, readWire_layout, traverse_withArguments]

end Response

/-! ### Comparison -/

theorem beq_getElem? {α : Type} [BEq α] {xs ys : List α} (h : (xs == ys) = true) (i : Nat) :
    (xs[i]? == ys[i]?) = true := by
  induction xs generalizing ys i with
  | nil =>
    cases ys with
    | nil => rfl
    | cons y ys => cases h
  | cons x xs ih =>
    cases ys with
    | nil => cases h
    | cons y ys =>
      rw [List.cons_beq_cons, Bool.and_eq_true] at h
      cases i with
      | zero => exact h.1
      | succ i => exact ih h.2 i

section
variable {E : Type} [BEq E]

theorem Payload.arguments?_of_beq {p q : Payload E} (h : (p == q) = true) : p.arguments? = q.arguments? := by
  cases p <;> cases q
  case toolCall.toolCall c d =>
    change (_ && c.arguments == d.arguments && _) = true at h
    simp only [Bool.and_eq_true, beq_iff_eq] at h
    exact congrArg some h.1.2
  all_goals first | rfl | cases h

theorem Block.arguments?_of_beq {b d : Block E} (h : (b == d) = true) : b.arguments? = d.arguments? := by
  obtain ⟨type, payload⟩ := b
  obtain ⟨type', payload'⟩ := d
  change (type == type' && payload == payload') = true at h
  rw [Bool.and_eq_true] at h
  cases payload <;> cases payload'
  case some.some p q => exact Payload.arguments?_of_beq (p := p) h.2
  all_goals first | rfl | cases h.2

/-- Equal responses have the same arguments. -/
theorem Response.arguments?_of_beq {r q : Response E} (h : (r == q) = true) (i : Nat) :
    r.arguments? i = q.arguments? i := by
  change (_ && r.blocks == q.blocks) = true at h
  rw [Bool.and_eq_true] at h
  have hi := beq_getElem? h.2 i
  rw [arguments?, arguments?]
  cases hr : r.blocks[i]? <;> cases hq : q.blocks[i]?
  case some.some b d =>
    rw [hr, hq] at hi
    exact Block.arguments?_of_beq (b := b) hi
  all_goals first | rfl | (rw [hr, hq] at hi; cases hi)

end

end TurnCodec
