import TurnCodec.Cbor.Builder
import TurnCodec.Proofs.Cbor.Denotation
/-! One item inside another. An item is a gap at a place, and what fills the gap; the bytes around
the gap are the same whatever fills it, and so is the tree around it. -/

namespace TurnCodec.Cbor

/-- A container with one of its items left out. -/
inductive Gap
  | item (w : Option Width) (before after : List Item)
  | field (w : Option Width) (before : List (Strand × Item)) (key : Strand)
      (after : List (Strand × Item))

namespace Gap

def fill (y : Item) : Gap → Item
  | item w before after => .array w (before ++ y :: after)
  | field w before key after => .map w (before ++ (key, y) :: after)

def step : Gap → Tree.Step
  | item _ before _ => .item before.length
  | field _ _ key _ => .field key.text

/-- The gap is what its place denotes: of entries under one key it is the last. -/
def Shown : Gap → Prop
  | item _ _ _ => True
  | field _ _ key after => ∀ d ∈ after, d.1.text ≠ key.text

def front : Gap → List Spelling
  | item w before after => .array w (before.length + (after.length + 1)) :: Item.itemSpellings before
  | field w before key after =>
    .map w (before.length + (after.length + 1)) :: (Item.entrySpellings before ++ [.text key])

def back : Gap → List Spelling
  | item w _ after => Item.itemSpellings after ++ ending w
  | field w _ _ after => Item.entrySpellings after ++ ending w

variable {g : Gap} {y z : Item}

theorem spellings_fill (g : Gap) (y : Item) : (g.fill y).spellings = g.front ++ (y.spellings ++ g.back) := by
  cases g with
  | item w before after => simp [fill, front, back, Item.spellings, Item.itemSpellings_eq]
  | field w before key after => simp [fill, front, back, Item.spellings, Item.entrySpellings_eq]

/-- Another item in the gap is another value there, and changes nothing else. -/
theorem tree_fill (hg : g.Shown) (y z : Item) {place : Tree.Place} {f : Tree → Tree}
    (h : z.tree = y.tree.edit f place) : (g.fill z).tree = (g.fill y).tree.edit f (g.step :: place) := by
  cases g with
  | item w before after =>
    simp [fill, step, Item.tree, Item.itemTrees_eq, Tree.edit, h]
  | field w before key after =>
    have hlast (x : Item) : (Item.fieldsAfter (before ++ (key, x) :: after) []).lookup key.text = some x.tree := by
      rw [Item.lookup_fieldsAfter_nil]
      exact Item.lookup_entryTrees_last (e := (key, x)) hg
    simp only [fill, step, Item.tree_map, Tree.edit, hlast, ← h]
    congr 1
    apply (Item.ascending_fieldsAfter _ .nil).ext (ascending_putEntry _ _ (Item.ascending_fieldsAfter _ .nil))
    intro k
    rw [lookup_putEntry]
    by_cases hk : k = key.text
    · rw [if_pos hk, hk, hlast]
    · rw [if_neg hk, Item.lookup_fieldsAfter_nil, Item.lookup_fieldsAfter_nil, Item.entryTrees_eq, Item.entryTrees_eq]
      simp [List.lookup_append, lookup_cons_eq, hk]

/-- What is at a place is in a gap there. -/
theorem exists_fill {x : Item} {s : Tree.Step} {place : Tree.Place} {t : Tree}
    (h : x.tree.find? (s :: place) = some t) :
    ∃ g y, x = fill y g ∧ g.step = s ∧ g.Shown ∧ y.tree.find? place = some t := by
  cases s with
  | item i =>
    cases x with
    | array w items =>
      rw [Item.tree, Item.itemTrees_eq, Tree.find?] at h
      obtain ⟨u, hu, ht⟩ := Option.bind_eq_some_iff.1 h
      rw [List.getElem?_map] at hu
      obtain ⟨y, hy, rfl⟩ := Option.map_eq_some_iff.1 hu
      obtain ⟨hi, rfl⟩ := List.getElem?_eq_some_iff.1 hy
      refine ⟨.item w (items.take i) (items.drop (i + 1)), items[i], ?_, ?_, trivial, ht⟩
      · rw [fill, List.getElem_cons_drop, List.take_append_drop]
      · rw [step, List.length_take_of_le (Nat.le_of_lt hi)]
    | _ => cases h
  | field key =>
    cases x with
    | map w entries =>
      rw [Item.tree_map, Tree.find?] at h
      obtain ⟨u, hu, ht⟩ := Option.bind_eq_some_iff.1 h
      rw [Item.lookup_fieldsAfter_nil] at hu
      have hkey : ∃ e ∈ entries, e.1.text = key := by
        by_contra hnone
        push Not at hnone
        rw [Item.lookup_entryTrees_eq_none.2 hnone] at hu
        cases hu
      obtain ⟨before, e, after, rfl, rfl, hafter⟩ := exists_last hkey
      rw [Item.lookup_entryTrees_last hafter] at hu
      obtain rfl := Option.some.inj hu
      exact ⟨.field w before e.1 after, e.2, rfl, rfl, hafter, ht⟩
    | _ => cases h

theorem fits_fill (h : (g.fill y).Fits) : y.Fits ∧ ∀ z : Item, z.Fits → (g.fill z).Fits := by
  cases g with
  | item w before after =>
    obtain ⟨hcount, hitems⟩ := Item.all_array.1 h
    rw [List.forall_mem_append, List.forall_mem_cons] at hitems
    obtain ⟨hbefore, hy, hafter⟩ := hitems
    refine ⟨hy, fun z hz => Item.all_array.2 ⟨?_, ?_⟩⟩
    · simpa [Item.FitsHere] using hcount
    · rw [List.forall_mem_append, List.forall_mem_cons]
      exact ⟨hbefore, hz, hafter⟩
  | field w before key after =>
    obtain ⟨⟨hcount, hkeys⟩, hentries⟩ := Item.all_map.1 h
    rw [List.forall_mem_append, List.forall_mem_cons] at hkeys hentries
    obtain ⟨hbefore, hy, hafter⟩ := hentries
    refine ⟨hy, fun z hz => Item.all_map.2 ⟨⟨?_, ?_⟩, ?_⟩⟩
    · simpa using hcount
    · rwa [List.forall_mem_append, List.forall_mem_cons]
    · rw [List.forall_mem_append, List.forall_mem_cons]
      exact ⟨hbefore, hz, hafter⟩

theorem all_fill {P : Item → Prop} (h : (g.fill y).All P) : y.All P := by
  cases g with
  | item w before after =>
    obtain ⟨-, hitems⟩ := Item.all_array.1 h
    exact hitems y (by simp)
  | field w before key after =>
    obtain ⟨-, hentries⟩ := Item.all_map.1 h
    exact hentries (key, y) (by simp)

theorem depth_fill (g : Gap) (h : y.depth = z.depth) : (g.fill y).depth = (g.fill z).depth := by
  cases g with
  | item w before after =>
    have hitems : Item.itemsDepth (before ++ y :: after) = Item.itemsDepth (before ++ z :: after) := by
      apply eq_of_forall_ge_iff
      intro d
      simp only [Item.itemsDepth_le, List.forall_mem_append, List.forall_mem_cons, h]
    rw [fill, fill, Item.depth, Item.depth, hitems]
  | field w before key after =>
    have hentries :
        Item.entriesDepth (before ++ (key, y) :: after) = Item.entriesDepth (before ++ (key, z) :: after) := by
      apply eq_of_forall_ge_iff
      intro d
      simp only [Item.entriesDepth_le, List.forall_mem_append, List.forall_mem_cons, h]
    rw [fill, fill, Item.depth, Item.depth, hentries]

end Gap

/-- The item in which gaps stand one inside another, outermost first, with the last one filled. -/
def plug (gaps : List Gap) (y : Item) : Item := gaps.foldr (fun g x => g.fill x) y

namespace Gap

def fronts (gaps : List Gap) : List Spelling := gaps.flatMap front

def backs (gaps : List Gap) : List Spelling := gaps.reverse.flatMap back

def place (gaps : List Gap) : Tree.Place := gaps.map step

end Gap

open Gap (fronts backs)

section
variable {gaps : List Gap}

theorem spellings_plug (gaps : List Gap) (y : Item) :
    (plug gaps y).spellings = fronts gaps ++ (y.spellings ++ backs gaps) := by
  induction gaps with
  | nil => simp [plug, fronts, backs]
  | cons g gaps ih =>
    rw [plug, List.foldr_cons, Gap.spellings_fill, ← plug, ih]
    simp [fronts, backs]

theorem encode_plug (gaps : List Gap) (y : Item) :
    (plug gaps y).encode = spelled (fronts gaps) ++ (y.encode ++ spelled (backs gaps)) := by
  simp only [Item.encode, spellings_plug, spelled, List.flatMap_append]

theorem tree_plug (shown : ∀ g ∈ gaps, g.Shown) (y z : Item) :
    (plug gaps z).tree = (plug gaps y).tree.edit (fun _ => z.tree) (Gap.place gaps) := by
  induction gaps with
  | nil => rfl
  | cons g gaps ih =>
    obtain ⟨hg, hgaps⟩ := List.forall_mem_cons.1 shown
    exact Gap.tree_fill hg _ _ (ih hgaps)

theorem exists_plug {x : Item} {place : Tree.Place} {t : Tree} (h : x.tree.find? place = some t) :
    ∃ gaps y, x = plug gaps y ∧ Gap.place gaps = place ∧ (∀ g ∈ gaps, g.Shown) ∧ y.tree = t := by
  induction place generalizing x with
  | nil => exact ⟨[], x, rfl, rfl, by simp, Option.some.inj h⟩
  | cons s place ih =>
    obtain ⟨g, y, rfl, rfl, hg, hy⟩ := Gap.exists_fill h
    obtain ⟨gaps, z, rfl, rfl, hgaps, hz⟩ := ih hy
    exact ⟨g :: gaps, z, rfl, rfl, List.forall_mem_cons.2 ⟨hg, hgaps⟩, hz⟩

theorem fits_plug {y : Item} (h : (plug gaps y).Fits) : y.Fits ∧ ∀ z : Item, z.Fits → (plug gaps z).Fits := by
  induction gaps with
  | nil => exact ⟨h, fun z hz => hz⟩
  | cons g gaps ih =>
    obtain ⟨hinner, hfill⟩ := Gap.fits_fill h
    obtain ⟨hy, hplug⟩ := ih hinner
    exact ⟨hy, fun z hz => hfill _ (hplug z hz)⟩

theorem all_plug {P : Item → Prop} {y : Item} (h : (plug gaps y).All P) : y.All P := by
  induction gaps with
  | nil => exact h
  | cons g gaps ih => exact ih (Gap.all_fill h)

theorem depth_plug (gaps : List Gap) {y z : Item} (h : y.depth = z.depth) :
    (plug gaps y).depth = (plug gaps z).depth := by
  induction gaps with
  | nil => exact h
  | cons g gaps ih => exact g.depth_fill ih

end

/-- The bytes are of an item with a text at a place, its own bytes `b` in one piece; their head
ends what is in front of them. -/
def TextAt (place : Tree.Place) (front b back body : List UInt8) : Prop :=
  ∃ gaps w, (plug gaps (.text (.whole w b))).Fits ∧ (∀ g ∈ gaps, g.Shown) ∧ Gap.place gaps = place ∧
    front = spelled (fronts gaps) ++ w.head 3 b.length ∧ back = spelled (backs gaps) ∧
    body = (plug gaps (.text (.whole w b))).encode

theorem encode_plug_text (gaps : List Gap) (w : Width) (b : List UInt8) : (plug gaps (.text (.whole w b))).encode =
    spelled (fronts gaps) ++ w.head 3 b.length ++ b ++ spelled (backs gaps) := by
  rw [encode_plug]
  simp [Item.encode, Item.spellings, spelled, Spelling.text, Strand.encode]

theorem exists_textAt {x : Item} (hx : x.Fits) (ha : x.All Item.Announced) {place : Tree.Place} {s : String}
    (h : x.tree.find? place = some (.text s)) : ∃ front back, TextAt place front (Text.bytes s) back x.encode := by
  obtain ⟨gaps, y, rfl, hplace, hshown, hy⟩ := exists_plug h
  cases y with
  | text strand =>
    have hwhole : strand.Whole := (all_plug ha).self
    obtain rfl := Tree.text.inj hy
    cases strand with
    | whole w b =>
      rw [show Text.bytes (Strand.whole w b).text = b from Text.bytes_ofBytes b]
      exact ⟨_, _, gaps, w, hx, hshown, hplace, rfl, rfl, rfl⟩
    | pieces ps => exact absurd hwhole id
  | _ => cases hy

section
variable {place : Tree.Place} {front b b' back body : List UInt8}

theorem TextAt.bytes (h : TextAt place front b back body) : body = front ++ b ++ back := by
  obtain ⟨gaps, w, -, -, -, rfl, rfl, rfl⟩ := h
  exact encode_plug_text gaps w b

/-- With as many other bytes in place of the text's own, they are of an item that nests as deep
and denotes the same tree but for the text at the place. -/
theorem TextAt.overwrite (h : TextAt place front b back body) (hb : b'.length = b.length) :
    ∃ x y : Item, x.Fits ∧ y.Fits ∧ x.encode = body ∧ y.encode = front ++ b' ++ back ∧ y.depth = x.depth ∧
      y.tree = x.tree.edit (fun _ => .text (Text.ofBytes b')) place := by
  obtain ⟨gaps, w, hfits, hshown, rfl, rfl, rfl, rfl⟩ := h
  obtain ⟨htext, hplug⟩ := fits_plug hfits
  have hw : w.Fits b'.length := by
    rw [hb]
    exact htext.self
  have hfits' : (plug gaps (.text (.whole w b'))).Fits :=
    hplug _ (by simpa [Item.Fits, Item.All, Item.nodes, Item.FitsHere, Strand.Fits] using hw)
  refine ⟨_, _, hfits, hfits', rfl, ?_, depth_plug gaps rfl, tree_plug hshown _ _⟩
  rw [encode_plug_text, hb]

end

end TurnCodec.Cbor
