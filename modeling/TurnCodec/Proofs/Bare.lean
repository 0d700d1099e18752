import TurnCodec.Proofs.Cbor.Scalar
import TurnCodec.Proofs.Tree
/-! What of a tree is written as data: no subtypes of byte strings, and of a NaN only that it is one.
It nests as the tree does, and is the tree where that has neither. -/

namespace TurnCodec.Tree

mutual

/-- The tree without the subtypes of its byte strings, and with the same NaN for every NaN. -/
def bare : Tree → Tree
  | float x => float x.written
  | bytes b _ => bytes b none
  | array items => array (bareItems items)
  | object fields => object (bareFields fields)
  | t => t

def bareItems : List Tree → List Tree
  | [] => []
  | t :: items => bare t :: bareItems items

def bareFields : List (String × Tree) → List (String × Tree)
  | [] => []
  | (key, t) :: fields => (key, bare t) :: bareFields fields

end

theorem bareItems_eq (items : List Tree) : bareItems items = items.map bare := by
  induction items with
  | nil => rfl
  | cons t items ih => rw [bareItems, ih, List.map_cons]

theorem bareFields_eq (fields : List (String × Tree)) : bareFields fields = fields.map fun f => (f.1, f.2.bare) := by
  induction fields with
  | nil => rfl
  | cons f fields ih => rw [bareFields, ih, List.map_cons]

theorem depth_bare (t : Tree) : t.bare.depth = t.depth := by
  induction t with
  | array items ih =>
    have hitems : itemsDepth (items.map bare) = itemsDepth items := by
      apply eq_of_forall_ge_iff
      intro d
      rw [itemsDepth_le, itemsDepth_le, List.forall_mem_map]
      exact forall₂_congr fun t ht => by rw [ih t ht]
    rw [bare, bareItems_eq, depth, depth, hitems]
  | object fields ih =>
    have hfields : fieldsDepth (fields.map fun f => (f.1, f.2.bare)) = fieldsDepth fields := by
      apply eq_of_forall_ge_iff
      intro d
      rw [fieldsDepth_le, fieldsDepth_le, List.forall_mem_map]
      exact forall₂_congr fun f hf => by rw [ih f hf]
    rw [bare, bareFields_eq, depth, depth, hfields]
  | _ => rfl

/-- No byte string in the tree has a subtype. -/
def Untagged (t : Tree) : Prop := t.All fun n => ∀ b m, n = .bytes b m → m = none

theorem untagged_array {items : List Tree} : (array items).Untagged ↔ ∀ t ∈ items, t.Untagged :=
  all_array.trans (and_iff_right (by simp))

theorem untagged_object {fields : List (String × Tree)} : (object fields).Untagged ↔ ∀ f ∈ fields, f.2.Untagged :=
  all_object.trans (and_iff_right (by simp))

theorem untagged_leaf {t : Tree} (h : t.nodes = [t]) (ht : ∀ b m, t = .bytes b m → m = none) : t.Untagged :=
  (all_leaf h).2 ht

/-- Nothing is lost of a tree without NaN and subtypes. -/
theorem bare_eq_self {t : Tree} (hn : t.Numeric) (hu : t.Untagged) : t.bare = t := by
  induction t with
  | float x => rw [bare, Binary64.written, if_neg (by simp [hn.self x rfl])]
  | bytes b m => rw [bare, hu.self b m rfl]
  | array items ih =>
    have each : ∀ t ∈ items, t.bare = t := fun t ht => ih t ht ((all_array.1 hn).2 t ht) ((all_array.1 hu).2 t ht)
    rw [bare, bareItems_eq, List.map_congr_left each, List.map_id']
  | object fields ih =>
    have each : ∀ f ∈ fields, (f.1, f.2.bare) = f := fun f hf => by
      rw [ih f hf ((all_object.1 hn).2 f hf) ((all_object.1 hu).2 f hf)]
    rw [bare, bareFields_eq, List.map_congr_left each, List.map_id']
  | _ => rfl

end TurnCodec.Tree
