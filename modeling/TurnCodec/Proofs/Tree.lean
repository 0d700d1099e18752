import Mathlib.Data.List.Basic
import TurnCodec.Tree.Basic
/-! Trees as a whole: induction over them, the nodes of one, how deep its containers
nest, and what makes a tree equal to itself. -/

namespace TurnCodec

namespace Tree

/-- Induction with the items of an array, and the values of an object, at once. -/
@[elab_as_elim, induction_eliminator]
theorem induct {motive : Tree → Prop} (null : motive .null) (bool : ∀ b, motive (.bool b))
    (int : ∀ n, motive (.int n)) (float : ∀ x, motive (.float x)) (text : ∀ s, motive (.text s))
    (bytes : ∀ b m, motive (.bytes b m)) (array : ∀ items, (∀ t ∈ items, motive t) → motive (.array items))
    (object : ∀ fields, (∀ f ∈ fields, motive f.2) → motive (.object fields)) (discarded : motive .discarded)
    (t : Tree) : motive t :=
  match t with
  | .null => null
  | .bool b => bool b
  | .int n => int n
  | .float x => float x
  | .text s => text s
  | .bytes b m => bytes b m
  | .array items =>
    array items fun t _ => induct null bool int float text bytes array object discarded t
  | .object fields =>
    object fields fun f _ => induct null bool int float text bytes array object discarded f.2
  | .discarded => discarded
termination_by sizeOf t
decreasing_by
  · have := List.sizeOf_lt_of_mem ‹t ∈ items›
    simp only [Tree.array.sizeOf_spec]
    omega
  · have := List.sizeOf_lt_of_mem ‹f ∈ fields›
    obtain ⟨k, t⟩ := f
    simp only [Tree.object.sizeOf_spec, Prod.mk.sizeOf_spec] at this ⊢
    omega

mutual

/-- The tree and all trees inside it, in document order. -/
def nodes : Tree → List Tree
  | array items => array items :: itemNodes items
  | object fields => object fields :: fieldNodes fields
  | t => [t]

def itemNodes : List Tree → List Tree
  | [] => []
  | t :: items => nodes t ++ itemNodes items

def fieldNodes : List (String × Tree) → List Tree
  | [] => []
  | (_, t) :: fields => nodes t ++ fieldNodes fields

end

theorem itemNodes_eq (items : List Tree) : itemNodes items = items.flatMap nodes := by
  induction items with
  | nil => rfl
  | cons t items ih => rw [itemNodes, ih, List.flatMap_cons]

theorem fieldNodes_eq (fields : List (String × Tree)) : fieldNodes fields = fields.flatMap fun f => f.2.nodes := by
  induction fields with
  | nil => rfl
  | cons f fields ih => rw [fieldNodes, ih, List.flatMap_cons]

/-- Every node has the property. -/
def All (P : Tree → Prop) (t : Tree) : Prop := ∀ n ∈ t.nodes, P n

instance {P : Tree → Prop} [DecidablePred P] (t : Tree) : Decidable (t.All P) :=
  inferInstanceAs (Decidable (∀ n ∈ t.nodes, P n))

section
variable {P Q : Tree → Prop} {t : Tree}

theorem All.self (h : t.All P) : P t := by
  apply h
  cases t <;> simp [nodes]

theorem All.imp (h : t.All P) (hPQ : ∀ n, P n → Q n) : t.All Q := fun n hn => hPQ n (h n hn)

theorem All.and (hP : t.All P) (hQ : t.All Q) : t.All fun n => P n ∧ Q n := fun n hn => ⟨hP n hn, hQ n hn⟩

theorem all_leaf (h : t.nodes = [t]) : t.All P ↔ P t := by rw [All, h, List.forall_mem_singleton]

theorem all_array {items : List Tree} : (array items).All P ↔ P (.array items) ∧ ∀ t ∈ items, t.All P := by
  simp only [All, nodes, itemNodes_eq, List.forall_mem_cons, List.mem_flatMap]
  exact and_congr_right fun _ => ⟨fun h t ht n hn => h n ⟨t, ht, hn⟩, fun h n ⟨t, ht, hn⟩ => h t ht n hn⟩

theorem all_object {fields : List (String × Tree)} :
    (object fields).All P ↔ P (.object fields) ∧ ∀ f ∈ fields, f.2.All P := by
  simp only [All, nodes, fieldNodes_eq, List.forall_mem_cons, List.mem_flatMap]
  exact and_congr_right fun _ => ⟨fun h f hf n hn => h n ⟨f, hf, hn⟩, fun h n ⟨f, hf, hn⟩ => h f hf n hn⟩

end

/-- Nothing in the tree is discarded, so it has a written form. -/
def Clean (t : Tree) : Prop := t.All (· ≠ .discarded)

/-- Every object is in key order, as objects are kept. -/
def Ordered (t : Tree) : Prop := t.All fun n => ∀ fields, n = .object fields → Ascending fields

/-- Nothing is discarded, and every object is in key order. -/
def Kept (t : Tree) : Prop := t.All fun n => n ≠ .discarded ∧ ∀ fields, n = .object fields → Ascending fields

theorem Kept.clean {t : Tree} (h : t.Kept) : t.Clean := h.imp fun _ hn => hn.1

theorem Kept.ordered {t : Tree} (h : t.Kept) : t.Ordered := h.imp fun _ hn => hn.2

@[simp] theorem kept_null : null.Kept := (all_leaf rfl).2 (by simp)

@[simp] theorem kept_bool (b : Bool) : (bool b).Kept := (all_leaf rfl).2 (by simp)

@[simp] theorem kept_int (n : Integer) : (int n).Kept := (all_leaf rfl).2 (by simp)

@[simp] theorem kept_float (x : Binary64) : (float x).Kept := (all_leaf rfl).2 (by simp)

@[simp] theorem kept_text (s : String) : (text s).Kept := (all_leaf rfl).2 (by simp)

@[simp] theorem kept_bytes (b : List UInt8) (m : Option UInt64) : (bytes b m).Kept := (all_leaf rfl).2 (by simp)

@[simp] theorem kept_array {items : List Tree} : (array items).Kept ↔ ∀ t ∈ items, t.Kept :=
  all_array.trans (and_iff_right (by simp))

@[simp] theorem kept_object {fields : List (String × Tree)} :
    (object fields).Kept ↔ Ascending fields ∧ ∀ f ∈ fields, f.2.Kept :=
  all_object.trans (and_congr_left' (by simp))

/-- No float in the tree is a NaN. -/
def Numeric (t : Tree) : Prop := t.All fun n => ∀ x, n = .float x → x.isNaN = false

mutual

/-- How deep arrays and objects nest. -/
def depth : Tree → Nat
  | array items => itemsDepth items + 1
  | object fields => fieldsDepth fields + 1
  | _ => 0

def itemsDepth : List Tree → Nat
  | [] => 0
  | t :: items => max (depth t) (itemsDepth items)

def fieldsDepth : List (String × Tree) → Nat
  | [] => 0
  | (_, t) :: fields => max (depth t) (fieldsDepth fields)

end

theorem itemsDepth_le {items : List Tree} {d : Nat} : itemsDepth items ≤ d ↔ ∀ t ∈ items, t.depth ≤ d := by
  induction items with
  | nil => simp [itemsDepth]
  | cons t items ih => simp only [itemsDepth, Nat.max_le, ih, List.forall_mem_cons]

theorem fieldsDepth_le {fields : List (String × Tree)} {d : Nat} :
    fieldsDepth fields ≤ d ↔ ∀ f ∈ fields, f.2.depth ≤ d := by
  induction fields with
  | nil => simp [fieldsDepth]
  | cons f fields ih => simp only [fieldsDepth, Nat.max_le, ih, List.forall_mem_cons]

theorem beqItems_self {items : List Tree} (h : ∀ t ∈ items, beq t t = true) : beqItems items items = true := by
  induction items with
  | nil => rfl
  | cons t items ih =>
    obtain ⟨ht, hitems⟩ := List.forall_mem_cons.1 h
    rw [beqItems, ht, ih hitems]
    rfl

theorem beqFields_self {fields : List (String × Tree)} (h : ∀ f ∈ fields, beq f.2 f.2 = true) :
    beqFields fields fields = true := by
  induction fields with
  | nil => rfl
  | cons f fields ih =>
    obtain ⟨hf, hfields⟩ := List.forall_mem_cons.1 h
    rw [beqFields, hf, ih hfields, beq_self_eq_true]
    rfl

/-- Only what is discarded or not a number keeps a tree from being equal to itself. -/
theorem beq_self {t : Tree} (hc : t.Clean) (hn : t.Numeric) : (t == t) = true := by
  change beq t t = true
  induction t with
  | null => rfl
  | bool b => exact beq_self_eq_true b
  | int n => exact beq_self_eq_true n
  | float x =>
    have hx : x.isNaN = false := hn.self x rfl
    change (!x.isNaN && (x.bits == x.bits || _)) = true
    rw [hx, beq_self_eq_true]
    rfl
  | text s => exact beq_self_eq_true s
  | bytes b m =>
    change (b == b && m == m) = true
    rw [beq_self_eq_true, beq_self_eq_true]
    rfl
  | array items ih =>
    rw [beq]
    exact beqItems_self fun t ht => ih t ht ((all_array.1 hc).2 t ht) ((all_array.1 hn).2 t ht)
  | object fields ih =>
    rw [beq]
    exact beqFields_self fun f hf => ih f hf ((all_object.1 hc).2 f hf) ((all_object.1 hn).2 f hf)
  | discarded => exact absurd rfl hc.self

end Tree

end TurnCodec
