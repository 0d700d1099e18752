import TurnCodec.Proofs.Cbor.Spelling
import TurnCodec.Proofs.Tree
/-! Well-formed items: every way to spell a tree with heads of any width, strings whole or
in pieces, containers announced or not, entries in any order, and keys repeated. Reading
one builds the tree that it denotes, however much comes around it. -/

namespace TurnCodec.Cbor

/-- An entry of a map is a key and an item. A negative integer is given by its complement. -/
inductive Item
  | null
  | bool (b : Bool)
  | natural (w : Width) (n : UInt64)
  | negative (w : Width) (n : UInt64)
  | half (bits : UInt16)
  | single (bits : UInt32)
  | double (x : Binary64)
  | text (s : Strand)
  | bytes (s : Strand)
  | array (w : Option Width) (items : List Item)
  | map (w : Option Width) (entries : List (Strand × Item))

/-- What ends a container: a stop, unless its entries are announced. -/
def ending : Option Width → List Spelling
  | some _ => []
  | none => [.stop]

/-- The fields of a map in the order of its entries; of two under one key the last stays. -/
def collect (entries : List (String × Tree)) : List (String × Tree) :=
  entries.foldl (fun fields e => putEntry e.1 e.2 fields) []

namespace Item

@[elab_as_elim, induction_eliminator]
theorem induct {motive : Item → Prop} (null : motive .null) (bool : ∀ b, motive (.bool b))
    (natural : ∀ w n, motive (.natural w n)) (negative : ∀ w n, motive (.negative w n))
    (half : ∀ bits, motive (.half bits)) (single : ∀ bits, motive (.single bits)) (double : ∀ x, motive (.double x))
    (text : ∀ s, motive (.text s)) (bytes : ∀ s, motive (.bytes s))
    (array : ∀ w items, (∀ x ∈ items, motive x) → motive (.array w items))
    (map : ∀ w entries, (∀ e ∈ entries, motive e.2) → motive (.map w entries)) (x : Item) : motive x :=
  match x with
  | .null => null
  | .bool b => bool b
  | .natural w n => natural w n
  | .negative w n => negative w n
  | .half bits => half bits
  | .single bits => single bits
  | .double x => double x
  | .text s => text s
  | .bytes s => bytes s
  | .array w items =>
    array w items fun x _ => induct null bool natural negative half single double text bytes array map x
  | .map w entries =>
    map w entries fun e _ => induct null bool natural negative half single double text bytes array map e.2
termination_by sizeOf x
decreasing_by
  · have := List.sizeOf_lt_of_mem ‹x ∈ items›
    simp only [Item.array.sizeOf_spec]
    omega
  · have := List.sizeOf_lt_of_mem ‹e ∈ entries›
    obtain ⟨k, x⟩ := e
    simp only [Item.map.sizeOf_spec, Prod.mk.sizeOf_spec] at this ⊢
    omega

mutual

def spellings : Item → List Spelling
  | null => [.null]
  | bool b => [.bool b]
  | natural w n => [.natural w n]
  | negative w n => [.negative w n]
  | half bits => [.half bits]
  | single bits => [.single bits]
  | double x => [.double x]
  | text s => [.text s]
  | bytes s => [.byteString s]
  | array w items => .array w items.length :: (itemSpellings items ++ ending w)
  | map w entries => .map w entries.length :: (entrySpellings entries ++ ending w)

def itemSpellings : List Item → List Spelling
  | [] => []
  | x :: items => spellings x ++ itemSpellings items

def entrySpellings : List (Strand × Item) → List Spelling
  | [] => []
  | (key, x) :: entries => .text key :: (spellings x ++ entrySpellings entries)

end

/-- The bytes of an item. -/
def encode (x : Item) : List UInt8 := spelled x.spellings

mutual

/-- The tree that an item denotes. -/
def tree : Item → Tree
  | null => .null
  | bool b => .bool b
  | natural _ n => .int (.ofUInt64 n)
  | negative _ n => .int (.complement n)
  | half bits => .float (.ofBits16 bits)
  | single bits => .float (.ofBits32 bits)
  | double x => .float x
  | text s => .text s.text
  | bytes s => .bytes s.content none
  | array _ items => .array (itemTrees items)
  | map _ entries => .object (collect (entryTrees entries))

def itemTrees : List Item → List Tree
  | [] => []
  | x :: items => tree x :: itemTrees items

def entryTrees : List (Strand × Item) → List (String × Tree)
  | [] => []
  | (key, x) :: entries => (key.text, tree x) :: entryTrees entries

end

mutual

/-- How deep the containers of an item nest, those under a repeated key included. -/
def depth : Item → Nat
  | array _ items => itemsDepth items + 1
  | map _ entries => entriesDepth entries + 1
  | _ => 0

def itemsDepth : List Item → Nat
  | [] => 0
  | x :: items => max (depth x) (itemsDepth items)

def entriesDepth : List (Strand × Item) → Nat
  | [] => 0
  | (_, x) :: entries => max (depth x) (entriesDepth entries)

end

mutual

/-- The item and all items inside it. -/
def nodes : Item → List Item
  | array w items => array w items :: itemNodes items
  | map w entries => map w entries :: entryNodes entries
  | x => [x]

def itemNodes : List Item → List Item
  | [] => []
  | x :: items => nodes x ++ itemNodes items

def entryNodes : List (Strand × Item) → List Item
  | [] => []
  | (_, x) :: entries => nodes x ++ entryNodes entries

end

def All (P : Item → Prop) (x : Item) : Prop := ∀ n ∈ x.nodes, P n

theorem itemTrees_eq (items : List Item) : itemTrees items = items.map tree := by
  induction items with
  | nil => rfl
  | cons x items ih => rw [itemTrees, ih, List.map_cons]

theorem entryTrees_eq (entries : List (Strand × Item)) :
    entryTrees entries = entries.map fun e => (e.1.text, e.2.tree) := by
  induction entries with
  | nil => rfl
  | cons e entries ih => rw [entryTrees, ih, List.map_cons]

theorem itemNodes_eq (items : List Item) : itemNodes items = items.flatMap nodes := by
  induction items with
  | nil => rfl
  | cons x items ih => rw [itemNodes, ih, List.flatMap_cons]

theorem entryNodes_eq (entries : List (Strand × Item)) :
    entryNodes entries = entries.flatMap fun e => e.2.nodes := by
  induction entries with
  | nil => rfl
  | cons e entries ih => rw [entryNodes, ih, List.flatMap_cons]

theorem itemSpellings_eq (items : List Item) : itemSpellings items = items.flatMap spellings := by
  induction items with
  | nil => rfl
  | cons x items ih => rw [itemSpellings, ih, List.flatMap_cons]

theorem entrySpellings_eq (entries : List (Strand × Item)) :
    entrySpellings entries = entries.flatMap fun e => .text e.1 :: e.2.spellings := by
  induction entries with
  | nil => rfl
  | cons e entries ih => rw [entrySpellings, ih, List.flatMap_cons, List.cons_append]

theorem itemsDepth_le {items : List Item} {d : Nat} : itemsDepth items ≤ d ↔ ∀ x ∈ items, x.depth ≤ d := by
  induction items with
  | nil => simp [itemsDepth]
  | cons x items ih => simp only [itemsDepth, Nat.max_le, ih, List.forall_mem_cons]

theorem entriesDepth_le {entries : List (Strand × Item)} {d : Nat} :
    entriesDepth entries ≤ d ↔ ∀ e ∈ entries, e.2.depth ≤ d := by
  induction entries with
  | nil => simp [entriesDepth]
  | cons e entries ih => simp only [entriesDepth, Nat.max_le, ih, List.forall_mem_cons]

section
variable {P : Item → Prop} {w : Option Width}

theorem All.self {x : Item} (h : x.All P) : P x := by
  apply h
  cases x <;> simp [nodes]

theorem all_array {items : List Item} : (array w items).All P ↔ P (.array w items) ∧ ∀ x ∈ items, x.All P := by
  simp only [All, nodes, itemNodes_eq, List.forall_mem_cons, List.mem_flatMap]
  exact and_congr_right fun _ => ⟨fun h x hx n hn => h n ⟨x, hx, hn⟩, fun h n ⟨x, hx, hn⟩ => h x hx n hn⟩

theorem all_map {entries : List (Strand × Item)} :
    (map w entries).All P ↔ P (.map w entries) ∧ ∀ e ∈ entries, e.2.All P := by
  simp only [All, nodes, entryNodes_eq, List.forall_mem_cons, List.mem_flatMap]
  exact and_congr_right fun _ => ⟨fun h e he n hn => h n ⟨e, he, hn⟩, fun h n ⟨e, he, hn⟩ => h e he n hn⟩

end

/-- Whether the arguments of an item stand in their heads, those of what is inside it apart. -/
def FitsHere : Item → Prop
  | natural w n => w.Fits n.toNat
  | negative w n => w.Fits n.toNat
  | text s => s.Fits
  | bytes s => s.Fits
  | array w items => ∀ v ∈ w, v.Fits items.length
  | map w entries => (∀ v ∈ w, v.Fits entries.length) ∧ ∀ e ∈ entries, e.1.Fits
  | _ => True

/-- Every argument stands in its head. -/
def Fits (x : Item) : Prop := x.All FitsHere

theorem sound_ending (w : Option Width) : ∀ s ∈ ending w, s.Sound := by
  cases w <;> simp [ending, Spelling.sound_stop]

theorem Fits.sound {x : Item} (h : x.Fits) : ∀ s ∈ x.spellings, s.Sound := by
  induction x with
  | null => simp [spellings, Spelling.sound_null]
  | bool b => simp [spellings, Spelling.sound_bool]
  | natural w n => simpa [spellings] using Spelling.sound_natural h.self
  | negative w n => simpa [spellings] using Spelling.sound_negative h.self
  | half bits => simp [spellings, Spelling.sound_half]
  | single bits => simp [spellings, Spelling.sound_single]
  | double x => simp [spellings, Spelling.sound_double]
  | text s => simpa [spellings] using Spelling.sound_text h.self
  | bytes s => simpa [spellings] using Spelling.sound_byteString h.self
  | array w items ih =>
    obtain ⟨hhere, hitems⟩ := all_array.1 h
    rw [spellings, itemSpellings_eq, List.forall_mem_cons, List.forall_mem_append, List.forall_mem_flatMap]
    exact ⟨Spelling.sound_array hhere, fun x hx => ih x hx (hitems x hx), sound_ending w⟩
  | map w entries ih =>
    obtain ⟨⟨hcount, hkeys⟩, hentries⟩ := all_map.1 h
    rw [spellings, entrySpellings_eq, List.forall_mem_cons, List.forall_mem_append, List.forall_mem_flatMap]
    refine ⟨Spelling.sound_map hcount, fun e he => ?_, sound_ending w⟩
    rw [List.forall_mem_cons]
    exact ⟨Spelling.sound_text (hkeys e he), ih e he (hentries e he)⟩

theorem encode_array (w : Option Width) (items : List Item) : (array w items).encode =
    (Spelling.array w items.length).bytes ++ (items.flatMap encode ++ spelled (ending w)) := by
  simp only [encode, spellings, itemSpellings_eq, spelled, List.flatMap_cons, List.flatMap_append, List.flatMap_assoc]
  rfl

theorem encode_map (w : Option Width) (entries : List (Strand × Item)) : (map w entries).encode =
    (Spelling.map w entries.length).bytes ++
      ((entries.flatMap fun e => (Spelling.text e.1).bytes ++ e.2.encode) ++ spelled (ending w)) := by
  simp only [encode, spellings, entrySpellings_eq, spelled, List.flatMap_cons, List.flatMap_append, List.flatMap_assoc]

theorem encode_pos (x : Item) : 0 < x.encode.length := by
  have pos (s : Spelling) (ss : List Spelling) (h : s.bytes ≠ []) : 0 < (spelled (s :: ss)).length := by
    rw [spelled, List.flatMap_cons, List.length_append]
    have := List.length_pos_iff.2 h
    omega
  unfold encode spellings
  cases x with
  | text s => exact pos _ _ (Strand.encode_ne _ _)
  | bytes s => exact pos _ _ (Strand.encode_ne _ _)
  | array w items => exact pos _ _ (by cases w <;> simp [Spelling.array, Width.head])
  | map w entries => exact pos _ _ (by cases w <;> simp [Spelling.map, Width.head])
  | _ => exact pos _ _ (by simp [Spelling.null, Spelling.bool, Spelling.natural, Spelling.negative, Spelling.half,
      Spelling.single, Spelling.double, Width.head])

/-- How many entries a container has. -/
def count : Item → Nat
  | array _ items => items.length
  | map _ entries => entries.length
  | _ => 0

theorem length_le_flatMap {α : Type} {f : α → List UInt8} {xs : List α} (h : ∀ x ∈ xs, 0 < (f x).length) :
    xs.length ≤ (xs.flatMap f).length := by
  induction xs with
  | nil => simp
  | cons x xs ih =>
    obtain ⟨hx, hxs⟩ := List.forall_mem_cons.1 h
    have := ih hxs
    rw [List.flatMap_cons, List.length_append, List.length_cons]
    omega

theorem le_length_flatMap {α : Type} {f : α → List UInt8} {xs : List α} {x : α} (h : x ∈ xs) :
    (f x).length ≤ (xs.flatMap f).length :=
  (List.sublist_flatten_of_mem (List.mem_map_of_mem h)).length_le

/-- No container has more entries than the whole item has bytes. -/
theorem count_le (x : Item) : x.All fun n => n.count ≤ x.encode.length := by
  have within {x y : Item} (h : x.encode.length ≤ y.encode.length) (hx : x.All fun n => n.count ≤ x.encode.length) :
      x.All fun n => n.count ≤ y.encode.length := fun n hn => (hx n hn).trans h
  induction x with
  | array w items ih =>
    have hitems : items.length ≤ (items.flatMap encode).length := length_le_flatMap fun x _ => x.encode_pos
    refine all_array.2 ⟨?_, fun x hx => within ?_ (ih x hx)⟩
    · rw [encode_array, List.length_append, List.length_append, count]
      omega
    · have := le_length_flatMap (f := encode) hx
      rw [encode_array, List.length_append, List.length_append]
      omega
  | map w entries ih =>
    have hentries : entries.length ≤
        (entries.flatMap fun e => (Spelling.text e.1).bytes ++ e.2.encode).length := by
      apply length_le_flatMap
      intro e _
      have := e.2.encode_pos
      rw [List.length_append]
      omega
    refine all_map.2 ⟨?_, fun e he => within ?_ (ih e he)⟩
    · rw [encode_map, List.length_append, List.length_append, count]
      omega
    · have := le_length_flatMap (f := fun e => (Spelling.text e.1).bytes ++ e.2.encode) he
      rw [List.length_append] at this
      rw [encode_map, List.length_append, List.length_append]
      omega
  | _ => simp [All, nodes, count]

end Item

end TurnCodec.Cbor
