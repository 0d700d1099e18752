import Mathlib.Data.List.Nodup
import TurnCodec.Proofs.Ascending
import TurnCodec.Proofs.Cbor.Tags
import TurnCodec.Proofs.Cbor.Written
/-! Bodies of a tree: the definite items that denote it, in which no key comes twice. They nest as
deep as the tree does. A tree that byte strings with subtypes are in has no body; what is written of
it has tags. The writer gives a body of every tree without these, but for what it writes of a NaN. -/

namespace TurnCodec.Cbor

namespace Item

/-- Whether the length of an item is announced, those of what is inside it apart. -/
def Announced : Item → Prop
  | text s => s.Whole
  | bytes s => s.Whole
  | array w _ => w.isSome
  | map w entries => w.isSome ∧ ∀ e ∈ entries, e.1.Whole
  | _ => True

/-- Whether the keys of an item differ. -/
def Distinct : Item → Prop
  | map _ entries => (entries.map fun e => e.1.text).Nodup
  | _ => True

/-- A key is bound to what its last entry says. -/
theorem lookup_fieldsAfter (entries : List (Strand × Item)) (fields : List (String × Tree)) (key : String) :
    (fieldsAfter entries fields).lookup key = ((entryTrees entries).reverse.lookup key).or (fields.lookup key) := by
  induction entries generalizing fields with
  | nil => simp [fieldsAfter, entryTrees]
  | cons e entries ih =>
    rw [show fieldsAfter (e :: entries) fields = fieldsAfter entries (putEntry e.1.text e.2.tree fields) from rfl, ih,
      lookup_putEntry, entryTrees, List.reverse_cons, List.lookup_append, Option.or_assoc, lookup_entry]
    congr 1
    split <;> simp

theorem depth_le_tree {x : Item} (h : x.All Distinct) : x.depth ≤ x.tree.depth := by
  induction x with
  | array w items ih =>
    have hitems := (all_array.1 h).2
    rw [depth, tree, Tree.depth, itemTrees_eq]
    refine Nat.succ_le_succ (itemsDepth_le.2 fun x hx => (ih x hx (hitems x hx)).trans ?_)
    exact Tree.itemsDepth_le.1 le_rfl _ (List.mem_map_of_mem hx)
  | map w entries ih =>
    obtain ⟨hkeys, hentries⟩ := all_map.1 h
    rw [depth, tree_map, Tree.depth]
    refine Nat.succ_le_succ (entriesDepth_le.2 fun e he => (ih e he (hentries e he)).trans ?_)
    have hnodup : ((entryTrees entries).reverse.map (·.1)).Nodup := by
      rw [List.map_reverse, List.nodup_reverse, entryTrees_eq, List.map_map]
      exact hkeys
    have hmem : (e.1.text, e.2.tree) ∈ (entryTrees entries).reverse := by
      rw [List.mem_reverse, entryTrees_eq]
      exact List.mem_map_of_mem (f := fun e => (e.1.text, e.2.tree)) he
    have hlast : (fieldsAfter entries []).lookup e.1.text = some e.2.tree := by
      rw [lookup_fieldsAfter, lookup_of_nodup hnodup hmem]
      rfl
    exact Tree.fieldsDepth_le.1 le_rfl _ (mem_of_lookup hlast)
  | _ => exact Nat.zero_le _

theorem mem_fieldsAfter {entries : List (Strand × Item)} {fields : List (String × Tree)} {f : String × Tree}
    (h : f ∈ fieldsAfter entries fields) : f ∈ fields ∨ ∃ e ∈ entries, f = (e.1.text, e.2.tree) := by
  induction entries generalizing fields with
  | nil => exact .inl h
  | cons e entries ih =>
    rcases ih h with hput | ⟨d, hd, rfl⟩
    · rcases mem_putEntry hput with rfl | hf
      · exact .inr ⟨e, List.mem_cons_self, rfl⟩
      · exact .inl hf
    · exact .inr ⟨d, List.mem_cons_of_mem _ hd, rfl⟩

theorem tree_depth_le (x : Item) : x.tree.depth ≤ x.depth := by
  induction x with
  | array w items ih =>
    rw [depth, tree, Tree.depth, itemTrees_eq]
    refine Nat.succ_le_succ (Tree.itemsDepth_le.2 (List.forall_mem_map.2 fun x hx => (ih x hx).trans ?_))
    exact itemsDepth_le.1 le_rfl x hx
  | map w entries ih =>
    rw [depth, tree_map, Tree.depth]
    refine Nat.succ_le_succ (Tree.fieldsDepth_le.2 fun f hf => ?_)
    rcases mem_fieldsAfter hf with hf | ⟨e, he, rfl⟩
    · cases hf
    · exact (ih e he).trans (entriesDepth_le.1 le_rfl e he)
  | _ => exact Nat.zero_le _

/-- Without repeated keys nothing of an item is lost, and its tree nests as deep. -/
theorem depth_tree {x : Item} (h : x.All Distinct) : x.tree.depth = x.depth :=
  Nat.le_antisymm x.tree_depth_le (depth_le_tree h)

/-- No byte string in what an item denotes has a subtype. -/
theorem untagged_tree (x : Item) : x.tree.Untagged := by
  induction x with
  | array w items ih =>
    rw [tree, itemTrees_eq, Tree.untagged_array]
    exact List.forall_mem_map.2 ih
  | map w entries ih =>
    rw [tree_map, Tree.untagged_object]
    intro f hf
    rcases mem_fieldsAfter hf with hf | ⟨e, he, rfl⟩
    · cases hf
    · exact ih e he
  | _ => exact Tree.untagged_leaf rfl (by simp [tree])

mutual

/-- The item that the writer gives: heads of least width, and fields in key order. -/
def ofTree : Tree → Item
  | .null => .null
  | .bool b => .bool b
  | .int n => ofInteger n
  | .float x => ofFloat x
  | .text s => .text (.plain (Text.bytes s))
  | .bytes b _ => .bytes (.plain b)
  | .array items => .array (some (.least items.length)) (ofItems items)
  | .object fields => .map (some (.least fields.length)) (ofFields fields)
  | .discarded => .null

def ofItems : List Tree → List Item
  | [] => []
  | t :: items => ofTree t :: ofItems items

def ofFields : List (String × Tree) → List (Strand × Item)
  | [] => []
  | (key, t) :: fields => (.plain (Text.bytes key), ofTree t) :: ofFields fields

end

theorem ofItems_eq (items : List Tree) : ofItems items = items.map ofTree := by
  induction items with
  | nil => rfl
  | cons t items ih => rw [ofItems, ih, List.map_cons]

theorem ofFields_eq (fields : List (String × Tree)) :
    ofFields fields = fields.map fun f => (.plain (Text.bytes f.1), ofTree f.2) := by
  induction fields with
  | nil => rfl
  | cons f fields ih => rw [ofFields, ih, List.map_cons]

end Item

/-- Whether the texts in a tree consist of bytes, those of what is inside it apart. -/
def BytewiseHere : Tree → Prop
  | .text s => Text.Bytewise s
  | .object fields => ∀ f ∈ fields, Text.Bytewise f.1
  | _ => True

/-- Whether the lengths in a tree stand in a head, those of what is inside it apart. The greatest
count would not be taken for one. -/
def SmallHere : Tree → Prop
  | .text s => s.length < 2 ^ 64
  | .bytes b _ => b.length < 2 ^ 64
  | .array items => items.length < 0xffffffffffffffff
  | .object fields => fields.length < 0xffffffffffffffff ∧ ∀ f ∈ fields, f.1.length < 2 ^ 64
  | _ => True

instance : DecidablePred BytewiseHere
  | .text s => inferInstanceAs (Decidable (Text.Bytewise s))
  | .object fields => inferInstanceAs (Decidable (∀ f ∈ fields, Text.Bytewise f.1))
  | .null | .bool _ | .int _ | .float _ | .bytes _ _ | .array _ | .discarded => isTrue trivial

instance : DecidablePred SmallHere
  | .text s => inferInstanceAs (Decidable (s.length < 2 ^ 64))
  | .bytes b _ => inferInstanceAs (Decidable (b.length < 2 ^ 64))
  | .array items => inferInstanceAs (Decidable (items.length < 0xffffffffffffffff))
  | .object fields =>
    inferInstanceAs (Decidable (fields.length < 0xffffffffffffffff ∧ ∀ f ∈ fields, f.1.length < 2 ^ 64))
  | .null | .bool _ | .int _ | .float _ | .discarded => isTrue trivial

/-- A tree that has a written form. -/
structure Writable (t : Tree) : Prop where
  clean : t.Clean
  ordered : t.Ordered
  bytewise : t.All BytewiseHere
  small : t.All SmallHere

theorem text_plain {s : String} (h : Text.Bytewise s) : (Strand.plain (Text.bytes s)).text = s := Text.ofBytes_bytes h

namespace Item

theorem tree_ofTree {t : Tree} (hc : t.Clean) (ho : t.Ordered) (hb : t.All BytewiseHere) : (ofTree t).tree = t.bare := by
  induction t with
  | int n => exact tree_ofInteger n
  | float x => exact tree_ofFloat x
  | text s => exact congrArg Tree.text (text_plain hb.self)
  | array items ih =>
    have each : ∀ t ∈ items, (ofTree t).tree = t.bare := fun t ht =>
      ih t ht ((Tree.all_array.1 hc).2 t ht) ((Tree.all_array.1 ho).2 t ht) ((Tree.all_array.1 hb).2 t ht)
    rw [ofTree, tree, itemTrees_eq, ofItems_eq, List.map_map, Tree.bare, Tree.bareItems_eq]
    exact congrArg Tree.array (List.map_congr_left each)
  | object fields ih =>
    have hentries : entryTrees (ofFields fields) = fields.map fun f => (f.1, f.2.bare) := by
      rw [entryTrees_eq, ofFields_eq, List.map_map]
      refine List.map_congr_left fun f hf => Prod.ext (text_plain (hb.self f hf)) ?_
      exact ih f hf ((Tree.all_object.1 hc).2 f hf) ((Tree.all_object.1 ho).2 f hf) ((Tree.all_object.1 hb).2 f hf)
    have hascending : Ascending (fields.map fun f => (f.1, f.2.bare)) := (ho.self fields rfl).map fun f => f.2.bare
    rw [ofTree, tree, hentries, collect, foldl_putEntry (by simpa using hascending), Tree.bare, Tree.bareFields_eq]
    rfl
  | discarded => exact absurd rfl hc.self
  | _ => rfl

theorem all_leaf {P : Item → Prop} {x : Item} (h : x.nodes = [x]) (hx : P x) : x.All P := by
  rw [All, h, List.forall_mem_singleton]
  exact hx

theorem nodes_ofInteger : ∀ i : Integer, (ofInteger i).nodes = [ofInteger i] :=
  ofInteger_cases (P := fun x => x.nodes = [x]) (fun _ _ => rfl) fun _ _ => rfl

theorem nodes_ofFloat : ∀ x : Binary64, (ofFloat x).nodes = [ofFloat x] :=
  ofFloat_cases (P := fun x => x.nodes = [x]) (fun _ => rfl) (fun _ => rfl) fun _ => rfl

theorem all_ofTree {P : Item → Prop} {t : Tree} (h : t.All fun n => P (ofTree n)) : (ofTree t).All P := by
  induction t with
  | int n => exact all_leaf (nodes_ofInteger n) h.self
  | float x => exact all_leaf (nodes_ofFloat x) h.self
  | array items ih =>
    obtain ⟨hhere, hitems⟩ := Tree.all_array.1 h
    rw [ofTree, all_array, ofItems_eq, List.forall_mem_map, ← ofItems_eq, ← ofTree]
    exact ⟨hhere, fun t ht => ih t ht (hitems t ht)⟩
  | object fields ih =>
    obtain ⟨hhere, hfields⟩ := Tree.all_object.1 h
    rw [ofTree, all_map, ofFields_eq, List.forall_mem_map, ← ofFields_eq, ← ofTree]
    exact ⟨hhere, fun f hf => ih f hf (hfields f hf)⟩
  | _ => exact all_leaf rfl h.self

theorem tagged_ofSubtype {subtype : Option UInt64} (s : Spelling) :
    Tagged [s] (Spelling.ofSubtype subtype ++ [s]) := by
  rcases subtype with _ | n
  · exact .refl [s]
  · exact .tag (Width.fits_ofTag n.toNat_lt) (.refl [s])

/-- What is written for the tree has the tokens of the item, with tags before some. -/
theorem tagged_ofTree {t : Tree} (hc : t.Clean) : Tagged (ofTree t).spellings t.spellings := by
  induction t with
  | bytes b m => exact tagged_ofSubtype _
  | array items ih =>
    have each : ∀ t ∈ items, Tagged (ofTree t).spellings t.spellings :=
      fun t ht => ih t ht ((Tree.all_array.1 hc).2 t ht)
    rw [ofTree, spellings, itemSpellings_eq, ofItems_eq, List.flatMap_map, Tree.spellings, Tree.itemSpellings_eq,
      List.length_map, ending, List.append_nil]
    exact .cons _ (.flatMap each)
  | object fields ih =>
    have each : ∀ f ∈ fields, Tagged (.text (.plain (Text.bytes f.1)) :: (ofTree f.2).spellings)
        (.text (.plain (Text.bytes f.1)) :: f.2.spellings) :=
      fun f hf => .cons _ (ih f hf ((Tree.all_object.1 hc).2 f hf))
    rw [ofTree, spellings, entrySpellings_eq, ofFields_eq, List.flatMap_map, Tree.spellings, Tree.fieldSpellings_eq,
      List.length_map, ending, List.append_nil]
    exact .cons _ (.flatMap each)
  | discarded => exact absurd rfl hc.self
  | _ => exact .refl _

theorem not_hasTag_spellings (x : Item) : ¬ HasTag x.spellings := by
  have single {s : Spelling} (hs : s.token ≠ .tag) : ¬ HasTag [s] := by simpa [HasTag] using hs
  have hending (w : Option Width) : ¬ HasTag (ending w) := by cases w <;> simp [HasTag, ending, Spelling.stop]
  induction x with
  | array w items ih =>
    rw [spellings, itemSpellings_eq, hasTag_cons, hasTag_append, hasTag_flatMap, Spelling.token_array]
    rintro (htag | ⟨x, hx, htag⟩ | htag)
    · cases htag
    · exact ih x hx htag
    · exact hending w htag
  | map w entries ih =>
    rw [spellings, entrySpellings_eq, hasTag_cons, hasTag_append, hasTag_flatMap, Spelling.token_map]
    rintro (htag | ⟨e, he, htag⟩ | htag)
    · cases htag
    · exact ih e he (hasTag_text.1 htag)
    · exact hending w htag
  | _ =>
    refine single fun htag => ?_
    cases htag

end Item

/-- Tags are written exactly for subtypes. -/
theorem hasTag_spellings (t : Tree) : HasTag t.spellings ↔ ¬ t.Untagged := by
  induction t with
  | int n => exact iff_of_false (Item.not_hasTag_spellings _) (not_not.2 (Tree.untagged_leaf rfl (by simp)))
  | float x => exact iff_of_false (Item.not_hasTag_spellings _) (not_not.2 (Tree.untagged_leaf rfl (by simp)))
  | bytes b m =>
    rw [Tree.Untagged, Tree.all_leaf rfl, Tree.spellings]
    cases m <;> simp [HasTag, Spelling.ofSubtype, Spelling.tag, Spelling.byteString]
  | array items ih =>
    rw [Tree.spellings, Tree.itemSpellings_eq, hasTag_cons, hasTag_flatMap, Tree.untagged_array, Spelling.token_array]
    simp only [reduceCtorEq, false_or]
    push Not
    exact exists_congr fun t => and_congr_right (ih t)
  | object fields ih =>
    rw [Tree.spellings, Tree.fieldSpellings_eq, hasTag_cons, hasTag_flatMap, Tree.untagged_object, Spelling.token_map]
    simp only [reduceCtorEq, false_or, hasTag_text]
    push Not
    exact exists_congr fun f => and_congr_right (ih f)
  | _ =>
    refine iff_of_false ?_ (not_not.2 (Tree.untagged_leaf rfl (by simp)))
    simp [HasTag, Tree.spellings, Spelling.null, Spelling.bool, Spelling.text]

/-- A well-formed definite item of the tree, without repeated keys. -/
def IsBody (w : Tree) (body : List UInt8) : Prop :=
  ∃ x : Item, x.Fits ∧ x.All Item.Announced ∧ x.All Item.Distinct ∧ x.tree = w ∧ x.encode = body

/-- What is written for the tree: a definite item of what is left of it, without repeated keys, and
with tags before its tokens exactly if there are subtypes. -/
def IsWritten (w : Tree) (body : List UInt8) : Prop :=
  ∃ (x : Item) (ss : List Spelling), x.Fits ∧ x.All Item.Announced ∧ x.All Item.Distinct ∧ x.tree = w.bare ∧
    Tagged x.spellings ss ∧ (HasTag ss ↔ ¬ w.Untagged) ∧ spelled ss = body

/-- A byte string with a subtype has no body. -/
theorem IsBody.untagged {w : Tree} {body : List UInt8} (h : IsBody w body) : w.Untagged := by
  obtain ⟨x, -, -, -, rfl, -⟩ := h
  exact x.untagged_tree

/-- A body of a tree is read as the tree exactly when the tree nests within the limit. -/
theorem IsBody.read_eq {w : Tree} {body : List UInt8} (h : IsBody w body) (hlength : body.length < 0xffffffffffffffff)
    (depth : Nat) : read depth body = if w.depth ≤ depth then .ok w else .error (.tooDeep depth) := by
  obtain ⟨x, hfits, -, hdistinct, rfl, rfl⟩ := h
  rw [read_encode hfits hlength, Item.depth_tree hdistinct]

/-- Whatever item a body of a tree is taken for, it denotes the tree and nests as deep. -/
theorem IsBody.of_encode {w : Tree} {x : Item} (h : IsBody w x.encode) (hx : x.Fits)
    (hlength : x.encode.length < 0xffffffffffffffff) : x.tree = w ∧ x.depth = w.depth := by
  have hread (d : Nat) : read d x.encode = if x.depth ≤ d then .ok x.tree else .error (.tooDeep d) :=
    read_encode hx hlength d
  have hbody := h.read_eq hlength x.depth
  rw [hread, if_pos le_rfl] at hbody
  split at hbody
  · have hat := hread w.depth
    rw [h.read_eq hlength, if_pos le_rfl] at hat
    split at hat
    · exact ⟨Except.ok.inj hbody, le_antisymm ‹_› ‹_›⟩
    · cases hat
  · cases hbody

namespace IsWritten

variable {w : Tree} {body : List UInt8}

/-- Without subtypes what is written is a body. -/
theorem isBody (h : IsWritten w body) (hu : w.Untagged) : IsBody w.bare body := by
  obtain ⟨x, ss, hfits, hannounced, hdistinct, hx, htagged, htag, rfl⟩ := h
  rw [htagged.eq_of_not_hasTag fun h => htag.1 h hu]
  exact ⟨x, hfits, hannounced, hdistinct, hx, rfl⟩

/-- With subtypes it is refused, as a body with tags in it. -/
theorem read_tagged (h : IsWritten w body) (hu : ¬ w.Untagged) (hlength : body.length < 0xffffffffffffffff)
    (depth : Nat) :
    read depth body = .error .malformed ∨ depth < w.depth ∧ read depth body = .error (.tooDeep depth) := by
  obtain ⟨x, ss, hfits, -, hdistinct, hx, htagged, htag, rfl⟩ := h
  have hdepth : x.depth = w.depth := by rw [← Item.depth_tree hdistinct, hx, Tree.depth_bare]
  rw [← hdepth]
  exact Cbor.read_tagged hfits htagged (htag.2 hu) hlength depth

/-- What is written is refused when bytes of it are lacking. -/
theorem read_take (h : IsWritten w body) (hlength : body.length < 0xffffffffffffffff) (depth : Nat) {n : Nat}
    (hn : n < body.length) : ∃ why, read depth (body.take n) = .error why := by
  obtain ⟨x, ss, hfits, -, -, -, htagged, -, rfl⟩ := h
  have hitem : x.encode.length < 0xffffffffffffffff := Nat.lt_of_le_of_lt htagged.length_le hlength
  exact read_take_spelled (htagged.sound hfits.sound) ((Item.unfinished hitem).tagged htagged) depth
    (hn.trans hlength) hn

end IsWritten

theorem fitsHere_ofTree {t : Tree} (h : SmallHere t) : (Item.ofTree t).FitsHere := by
  have plain {b : List UInt8} (hb : b.length < 2 ^ 64) : (Strand.plain b).Fits := Width.fits_least hb
  cases t with
  | int n => exact Item.fits_ofInteger n
  | float x => exact Item.fits_ofFloat x
  | text s => exact plain (by rwa [Text.length_bytes])
  | bytes b m => exact plain h
  | array items =>
    rw [Item.ofTree, Item.FitsHere, Item.ofItems_eq, List.length_map]
    rintro _ ⟨⟩
    exact Width.fits_least (Nat.lt_trans h (by decide))
  | object fields =>
    rw [Item.ofTree, Item.FitsHere, Item.ofFields_eq, List.length_map, List.forall_mem_map]
    refine ⟨?_, fun f hf => plain (by rw [Text.length_bytes]; exact h.2 f hf)⟩
    rintro _ ⟨⟩
    exact Width.fits_least (Nat.lt_trans h.1 (by decide))
  | _ => trivial

theorem announced_ofTree (t : Tree) : (Item.ofTree t).Announced := by
  cases t with
  | int n => exact Item.ofInteger_cases (P := Item.Announced) (fun _ _ => trivial) (fun _ _ => trivial) n
  | float x => exact Item.ofFloat_cases (P := Item.Announced) (fun _ => trivial) (fun _ => trivial) (fun _ => trivial) x
  | object fields =>
    rw [Item.ofTree, Item.Announced, Item.ofFields_eq, List.forall_mem_map]
    exact ⟨rfl, fun f _ => trivial⟩
  | _ => trivial

theorem distinct_ofTree {t : Tree} (ho : ∀ fields, t = .object fields → Ascending fields) (hb : BytewiseHere t) :
    (Item.ofTree t).Distinct := by
  cases t with
  | int n => exact Item.ofInteger_cases (P := Item.Distinct) (fun _ _ => trivial) (fun _ _ => trivial) n
  | float x => exact Item.ofFloat_cases (P := Item.Distinct) (fun _ => trivial) (fun _ => trivial) (fun _ => trivial) x
  | object fields =>
    have hkeys : fields.map (fun f => (Strand.plain (Text.bytes f.1)).text) = fields.map (·.1) :=
      List.map_congr_left fun f hf => text_plain (hb f hf)
    rw [Item.ofTree, Item.Distinct, Item.ofFields_eq, List.map_map]
    exact hkeys ▸ (ho fields rfl).nodup
  | _ => trivial

/-- What the writer gives is what is written for the tree. -/
theorem isWritten_toCbor {w : Tree} (h : Writable w) : IsWritten w w.toCbor :=
  ⟨Item.ofTree w, w.spellings, Item.all_ofTree fun n hn => fitsHere_ofTree (h.small n hn),
    Item.all_ofTree fun n _ => announced_ofTree n,
    Item.all_ofTree fun n hn => distinct_ofTree (h.ordered n hn) (h.bytewise n hn),
    Item.tree_ofTree h.clean h.ordered h.bytewise, Item.tagged_ofTree h.clean, hasTag_spellings w, w.spelled_spellings⟩

/-- The writer gives a body of a tree that it writes whole. -/
theorem isBody_toCbor {w : Tree} (h : Writable w) (hn : w.Numeric) (hu : w.Untagged) : IsBody w w.toCbor := by
  have hbody := (isWritten_toCbor h).isBody hu
  rwa [Tree.bare_eq_self hn hu] at hbody

theorem toCbor_pos {t : Tree} (h : t.Clean) : 0 < t.toCbor.length := by
  rw [← t.spelled_spellings]
  exact Nat.lt_of_lt_of_le (Item.ofTree t).encode_pos (Item.tagged_ofTree h).length_le

theorem head_pos (major n : Nat) : 0 < (head major n).length := by
  rw [← Width.head_least, Width.head, List.length_cons]
  exact Nat.succ_pos _

theorem items_length {items : List Tree} (hc : ∀ t ∈ items, t.Clean) :
    items.length ≤ (Tree.itemsToCbor items).length ∧
      ∀ t ∈ items, t.toCbor.length ≤ (Tree.itemsToCbor items).length := by
  rw [Tree.itemsToCbor_eq]
  exact ⟨Item.length_le_flatMap fun t ht => toCbor_pos (hc t ht), fun t ht => Item.le_length_flatMap ht⟩

theorem fields_length {fields : List (String × Tree)} (hc : ∀ f ∈ fields, f.2.Clean) :
    fields.length ≤ (Tree.fieldsToCbor fields).length ∧
      ∀ f ∈ fields, f.1.length + f.2.toCbor.length ≤ (Tree.fieldsToCbor fields).length := by
  let entry (f : String × Tree) := head 3 f.1.length ++ Text.bytes f.1 ++ f.2.toCbor
  have hentry (f : String × Tree) : (entry f).length = (head 3 f.1.length).length + f.1.length + f.2.toCbor.length := by
    simp [entry, Nat.add_assoc]
  rw [show Tree.fieldsToCbor fields = fields.flatMap entry from Tree.fieldsToCbor_eq fields]
  constructor
  · refine Item.length_le_flatMap fun f hf => ?_
    have := toCbor_pos (hc f hf)
    rw [hentry]
    omega
  · intro f hf
    have hpart : (entry f).length ≤ (fields.flatMap entry).length := Item.le_length_flatMap hf
    rw [hentry] at hpart
    omega

/-- The lengths in a tree stand in heads if the length of the whole would. -/
theorem small_of_length {t : Tree} (hc : t.Clean) (h : t.toCbor.length < 2 ^ 64) : t.All SmallHere := by
  induction t with
  | text s =>
    rw [Tree.toCbor, List.length_append, Text.length_bytes] at h
    refine (Tree.all_leaf rfl).2 ?_
    simp only [SmallHere]
    omega
  | bytes b m =>
    rw [Tree.toCbor, List.length_append, List.length_append] at h
    refine (Tree.all_leaf rfl).2 ?_
    simp only [SmallHere]
    omega
  | array items ih =>
    have hitems := (Tree.all_array.1 hc).2
    obtain ⟨hcount, hpart⟩ := items_length hitems
    rw [Tree.toCbor, List.length_append] at h
    have := head_pos 4 items.length
    refine Tree.all_array.2 ⟨?_, fun t ht => ih t ht (hitems t ht) ?_⟩
    · show items.length < 0xffffffffffffffff
      omega
    · have := hpart t ht
      omega
  | object fields ih =>
    have hfields := (Tree.all_object.1 hc).2
    obtain ⟨hcount, hpart⟩ := fields_length hfields
    rw [Tree.toCbor, List.length_append] at h
    have := head_pos 5 fields.length
    refine Tree.all_object.2 ⟨⟨by omega, fun f hf => ?_⟩, fun f hf => ih f hf (hfields f hf) ?_⟩
    all_goals
      have := hpart f hf
      omega
  | _ => exact (Tree.all_leaf rfl).2 (by simp [SmallHere])

theorem Writable.of_length {t : Tree} (h : t.Kept) (hb : t.All BytewiseHere) (hlength : t.toCbor.length < 2 ^ 64) :
    Writable t := ⟨h.clean, h.ordered, hb, small_of_length h.clean hlength⟩

end TurnCodec.Cbor
