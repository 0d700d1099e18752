import TurnCodec.Proofs.Cbor.Prefix
import TurnCodec.Proofs.Cbor.Told
/-! Points inside a body: the containers that are open there, with what is written of each, and
the heads of containers that a reader has met up to there. Reading comes to a point exactly over
the bytes before it, and the first head that the guards refuse is where it ends. -/

namespace TurnCodec.Cbor

/-- The head of a container: how many containers are open where it stands, and how many entries
it announces, if it does. -/
structure Met where
  outer : Nat
  count : Option Nat

namespace Met

def TooDeep (lim : Limits) (m : Met) : Prop := lim.depth ≤ m.outer

/-- More entries are announced than the body has bytes. -/
def TooMany (lim : Limits) (m : Met) : Prop := ∃ n ∈ m.count, lim.size < n

def Exceeds (lim : Limits) (m : Met) : Prop := m.TooDeep lim ∨ m.TooMany lim

/-- What a head is refused for, its depth first. -/
def rejection (lim : Limits) (m : Met) : Rejection :=
  if lim.depth ≤ m.outer then .tooDeep lim.depth else .tooMany (m.count.getD 0) lim.size

section
variable {lim : Limits} {m : Met}

theorem rejection_deep (h : m.TooDeep lim) : m.rejection lim = .tooDeep lim.depth := if_pos h

theorem rejection_many (h : ¬ m.TooDeep lim) : m.rejection lim = .tooMany (m.count.getD 0) lim.size := if_neg h

theorem rejection_ne : m.rejection lim ≠ .malformed := by
  unfold rejection
  split <;> simp

end

end Met

namespace Item

mutual

/-- The heads of the containers of an item, in order, where `outer` containers are open. -/
def heads (outer : Nat) : Item → List Met
  | array w items => ⟨outer, w.map fun _ => items.length⟩ :: itemHeads (outer + 1) items
  | map w entries => ⟨outer, w.map fun _ => entries.length⟩ :: entryHeads (outer + 1) entries
  | _ => []

def itemHeads (outer : Nat) : List Item → List Met
  | [] => []
  | x :: items => heads outer x ++ itemHeads outer items

def entryHeads (outer : Nat) : List (Strand × Item) → List Met
  | [] => []
  | (_, x) :: entries => heads outer x ++ entryHeads outer entries

end

theorem itemHeads_eq (outer : Nat) (items : List Item) : itemHeads outer items = items.flatMap (heads outer) := by
  induction items with
  | nil => rfl
  | cons x items ih => rw [itemHeads, ih, List.flatMap_cons]

theorem entryHeads_eq (outer : Nat) (entries : List (Strand × Item)) :
    entryHeads outer entries = entries.flatMap fun e => e.2.heads outer := by
  induction entries with
  | nil => rfl
  | cons e entries ih => rw [entryHeads, ih, List.flatMap_cons]

/-- An item without a head that is too deep nests within the limit. -/
theorem depth_of_heads {lim : Limits} {x : Item} {outer : Nat} (hroom : outer ≤ lim.depth)
    (h : ∀ m ∈ x.heads outer, ¬ m.TooDeep lim) : outer + x.depth ≤ lim.depth := by
  induction x generalizing outer with
  | array w items ih =>
    rw [heads, itemHeads_eq, List.forall_mem_cons, List.forall_mem_flatMap] at h
    obtain ⟨hhere, hitems⟩ := h
    have hlt : outer + 1 ≤ lim.depth := Nat.lt_of_not_le hhere
    have hdepth : itemsDepth items ≤ lim.depth - (outer + 1) := itemsDepth_le.2 fun x hx => by
      have := ih x hx hlt (hitems x hx)
      omega
    rw [depth]
    omega
  | map w entries ih =>
    rw [heads, entryHeads_eq, List.forall_mem_cons, List.forall_mem_flatMap] at h
    obtain ⟨hhere, hentries⟩ := h
    have hlt : outer + 1 ≤ lim.depth := Nat.lt_of_not_le hhere
    have hdepth : entriesDepth entries ≤ lim.depth - (outer + 1) := entriesDepth_le.2 fun e he => by
      have := ih e he hlt (hentries e he)
      omega
    rw [depth]
    omega
  | _ => exact hroom

end Item

/-- An open container as far as it is written: how its entries are announced, and those that are
complete. A map waits for a key, or for the value of one. -/
inductive Layer
  | items (w : Option Width) (n : Nat) (done : List Item)
  | keys (w : Option Width) (n : Nat) (done : List (Strand × Item))
  | value (w : Option Width) (n : Nat) (done : List (Strand × Item)) (key : Strand)

def entrySpelling (e : Strand × Item) : List Spelling := .text e.1 :: e.2.spellings

namespace Layer

def spellings : Layer → List Spelling
  | items w n done => .array w n :: done.flatMap Item.spellings
  | keys w n done => .map w n :: done.flatMap entrySpelling
  | value w n done key => .map w n :: (done.flatMap entrySpelling ++ [.text key])

/-- The heads of the container and of what is complete in it. -/
def heads (outer : Nat) : Layer → List Met
  | items w n done => ⟨outer, w.map fun _ => n⟩ :: done.flatMap (Item.heads (outer + 1))
  | keys w n done | value w n done _ => ⟨outer, w.map fun _ => n⟩ :: done.flatMap fun e => e.2.heads (outer + 1)

def EntryFits (e : Strand × Item) : Prop := e.1.Fits ∧ e.2.Fits

/-- Every argument stands in its head. -/
def Fits : Layer → Prop
  | items w n done => (∀ v ∈ w, v.Fits n) ∧ ∀ x ∈ done, x.Fits
  | keys w n done => (∀ v ∈ w, v.Fits n) ∧ ∀ e ∈ done, EntryFits e
  | value w n done key => (∀ v ∈ w, v.Fits n) ∧ (∀ e ∈ done, EntryFits e) ∧ key.Fits

/-- Another entry is to come, if entries are announced. -/
def Lacks : Layer → Prop
  | items w n done => ∀ v ∈ w, done.length < n
  | keys w n done | value w n done _ => ∀ v ∈ w, done.length < n

/-- A value may come next. -/
def Ready : Layer → Prop
  | keys _ _ _ => False
  | _ => True

/-- What the reader keeps of the container. -/
def frame : Layer → Frame
  | items w n done => .items (done.map Item.tree).reverse (w.map fun _ => n - done.length)
  | keys w n done => .keys (Item.fieldsAfter done []) (w.map fun _ => n - done.length)
  | value w n done key => .value (Item.fieldsAfter done []) (w.map fun _ => n - done.length) key.text

end Layer

/-- The tokens before a point, with their bytes; the open containers are given innermost first. -/
def ahead : List Layer → List Spelling
  | [] => []
  | l :: outer => ahead outer ++ l.spellings

/-- The heads before a point. -/
def met : List Layer → List Met
  | [] => []
  | l :: outer => met outer ++ l.heads outer.length

/-- A point of a well-formed beginning, no head before it having the property. Only the innermost
map may wait for a key. -/
structure Point (P : Met → Prop) (layers : List Layer) : Prop where
  fits : ∀ l ∈ layers, l.Fits
  lacks : ∀ l ∈ layers, l.Lacks
  ready : ∀ l ∈ layers.tail, l.Ready
  passed : ∀ m ∈ met layers, ¬ P m

/-- A head with the property is the first such head that is met in the body. Whatever comes after
it is not looked at. -/
inductive MeetsFirst (P : Met → Prop) : List UInt8 → Met → Prop
  | intro {layers : List Layer} {w : Option Width} {n : Nat} {head : Spelling} (rest : List UInt8)
      (point : Point P layers) (ready : ∀ l ∈ layers, l.Ready) (opens : head = .array w n ∨ head = .map w n)
      (announced : ∀ v ∈ w, v.Fits n) (meets : P ⟨layers.length, w.map fun _ => n⟩) :
      MeetsFirst P (spelled (ahead layers ++ [head]) ++ rest) ⟨layers.length, w.map fun _ => n⟩

theorem Point.outer {P : Met → Prop} {l : Layer} {outer : List Layer} (h : Point P (l :: outer)) : Point P outer where
  fits m hm := h.fits m (List.mem_cons_of_mem _ hm)
  lacks m hm := h.lacks m (List.mem_cons_of_mem _ hm)
  ready m hm := h.ready m (List.mem_of_mem_tail hm)
  passed m hm := h.passed m (List.mem_append_left _ hm)

section
variable {lim : Limits}

theorem guard_passes {frames : List Frame} {count : Option Nat} (hopen : Open frames)
    (h : ¬ Met.Exceeds lim ⟨frames.length, count⟩) : guard lim frames count = .ok () := by
  obtain ⟨hdepth, hmany⟩ : ¬ lim.depth ≤ frames.length ∧ _ := not_or.1 h
  unfold guard
  split
  · exact absurd rfl (hopen _ _ _)
  rw [if_neg hdepth]
  rcases count with _ | n
  · rfl
  · exact if_neg fun hn => hmany ⟨n, rfl, hn⟩

theorem guard_deep {frames : List Frame} (hopen : Open frames) (h : lim.depth ≤ frames.length) (count : Option Nat) :
    guard lim frames count = .error (.tooDeep lim.depth) := by
  unfold guard
  split
  · exact absurd rfl (hopen _ _ _)
  · exact if_pos h

/-- The guards refuse what exceeds the limits, but for the greatest count. -/
theorem guard_refuses {frames : List Frame} {w : Option Width} {n : Nat} (hopen : Open frames)
    (announced : ∀ v ∈ w, v.Fits n) (h : Met.Exceeds lim ⟨frames.length, w.map fun _ => n⟩)
    (hcount : w.map (fun _ => n) = some 0xffffffffffffffff → lim.depth ≤ frames.length) :
    guard lim frames (w.bind fun _ => Cbor.announced n) =
      .error (Met.rejection lim ⟨frames.length, w.map fun _ => n⟩) := by
  by_cases hdepth : Met.TooDeep lim ⟨frames.length, w.map fun _ => n⟩
  · rw [guard_deep hopen hdepth, Met.rejection_deep hdepth]
  obtain ⟨m, hm, hmany⟩ := h.resolve_left hdepth
  obtain ⟨v, rfl, rfl⟩ := Option.map_eq_some_iff.1 hm
  have hlt := (announced v rfl).lt
  have hne : n ≠ 0xffffffffffffffff := fun hn => hdepth (hcount (congrArg some hn))
  rw [Spelling.bind_announced _ (by omega), Met.rejection_many hdepth]
  unfold guard
  split
  · exact absurd rfl (hopen _ _ _)
  · exact (if_neg hdepth).trans (if_pos hmany)

theorem open_of_ready {layers : List Layer} (h : ∀ l ∈ layers, l.Ready) : Open (layers.map Layer.frame) := by
  rcases layers with _ | ⟨l, outer⟩
  · simp [Open]
  · have hl : l.Ready := h l List.mem_cons_self
    rcases l with _ | _ | _
    · simp [Open, Layer.frame]
    · exact absurd hl id
    · simp [Open, Layer.frame]

/-- An array that lacks more than the item that comes stays open. -/
theorem place_more_items {x : Item} {w : Option Width} {n : Nat} {done : List Item} {outer : List Frame}
    (hlack : ∀ v ∈ w, done.length + 1 < n) : place x.tree ((Layer.items w n done).frame :: outer) =
      .ok (.within ((Layer.items w n (done ++ [x])).frame :: outer)) := by
  simp only [Layer.frame, List.map_append, List.reverse_append, List.length_append, List.map_singleton,
    List.reverse_singleton, List.singleton_append, List.length_singleton]
  rcases w with _ | v
  · exact place_free_item _ _ _
  · obtain ⟨k, rfl⟩ := Nat.exists_eq_add_of_lt (hlack v rfl)
    rw [Option.map_some, Option.map_some, show done.length + 1 + k + 1 - done.length = k + 2 by omega,
      show done.length + 1 + k + 1 - (done.length + 1) = k + 1 by omega, place_item]

/-- A map that lacks more than the value that comes stays open. -/
theorem place_more_entries {x : Item} {w : Option Width} {n : Nat} {done : List (Strand × Item)}
    {key : Strand} {outer : List Frame} (hlack : ∀ v ∈ w, done.length + 1 < n) :
    place x.tree ((Layer.value w n done key).frame :: outer) =
      .ok (.within ((Layer.keys w n (done ++ [(key, x)])).frame :: outer)) := by
  simp only [Layer.frame, Item.fieldsAfter, List.foldl_append, List.foldl_cons, List.foldl_nil, List.length_append,
    List.length_singleton]
  rcases w with _ | v
  · exact place_free_value _ _ _ _
  · obtain ⟨k, rfl⟩ := Nat.exists_eq_add_of_lt (hlack v rfl)
    rw [Option.map_some, Option.map_some, show done.length + 1 + k + 1 - done.length = k + 2 by omega,
      show done.length + 1 + k + 1 - (done.length + 1) = k + 1 by omega, place_value]

theorem count_ne_zero {w : Option Width} {n : Nat} (hn : ∀ v ∈ w, 0 < n) : w.map (fun _ => n) ≠ some 0 := by
  intro h
  obtain ⟨v, hv, rfl⟩ := Option.map_eq_some_iff.1 h
  exact absurd (hn v hv) (Nat.lt_irrefl 0)

section
variable (hlim : lim.size < 0xffffffffffffffff)
include hlim

/-- The greatest count would exceed the limits, so one that does not is announced as it is. -/
theorem bind_announced_of_not_exceeds {w : Option Width} {n outer : Nat}
    (h : ¬ Met.Exceeds lim ⟨outer, w.map fun _ => n⟩) : (w.bind fun _ => announced n) = w.map fun _ => n := by
  cases w with
  | none => rfl
  | some w =>
    have hn : ¬ lim.size < n := fun hn => h (.inr ⟨n, rfl, hn⟩)
    exact Spelling.bind_announced _ (by omega)

/-- An item is put in its place if none of its heads exceeds the limits. -/
theorem feed_item {x : Item} {frames : List Frame} (hopen : Open frames) (hroom : frames.length ≤ lim.depth)
    (hsize : x.encode.length ≤ lim.size) (passed : ∀ m ∈ x.heads frames.length, ¬ m.Exceeds lim) :
    feed lim (.within frames) (x.spellings.map (·.token)) = place x.tree frames := by
  have hfed := x.fed hlim (fun n hn => (x.count_le n hn).trans hsize) frames hopen hroom
  rwa [if_pos (Item.depth_of_heads hroom fun m hm hdeep => passed m hm (.inl hdeep))] at hfed

theorem feed_array {w : Option Width} {n : Nat} {frames : List Frame} (hopen : Open frames) (hn : ∀ v ∈ w, 0 < n)
    (passed : ¬ Met.Exceeds lim ⟨frames.length, w.map fun _ => n⟩) :
    feed lim (.within frames) [(Spelling.array w n).token] = .ok (.within ((Layer.items w n []).frame :: frames)) := by
  rw [Spelling.token_array, bind_announced_of_not_exceeds hlim passed, feed_within, step, guard_passes hopen passed,
    ok_bind, if_neg (count_ne_zero hn)]
  rfl

theorem feed_map {w : Option Width} {n : Nat} {frames : List Frame} (hopen : Open frames) (hn : ∀ v ∈ w, 0 < n)
    (passed : ¬ Met.Exceeds lim ⟨frames.length, w.map fun _ => n⟩) :
    feed lim (.within frames) [(Spelling.map w n).token] = .ok (.within ((Layer.keys w n []).frame :: frames)) := by
  rw [Spelling.token_map, bind_announced_of_not_exceeds hlim passed, feed_within, step, guard_passes hopen passed,
    ok_bind, if_neg (count_ne_zero hn)]
  rfl

/-- The tokens of an array lead to its frame. -/
theorem feed_items_layer {w : Option Width} {n : Nat} {done : List Item} {frames : List Frame} (hopen : Open frames)
    (lacks : (Layer.items w n done).Lacks) (hsize : (spelled (Layer.items w n done).spellings).length ≤ lim.size)
    (passed : ∀ m ∈ (Layer.items w n done).heads frames.length, ¬ m.Exceeds lim) :
    feed lim (.within frames) ((Layer.items w n done).spellings.map (·.token)) =
      .ok (.within ((Layer.items w n done).frame :: frames)) := by
  obtain ⟨hfirst, hpassed⟩ := List.forall_mem_cons.1 passed
  have hroom : frames.length + 1 ≤ lim.depth := Nat.lt_of_not_le fun hdeep => hfirst (.inl hdeep)
  clear passed
  induction done using List.reverseRecOn with
  | nil => exact feed_array hlim hopen lacks hfirst
  | append_singleton done x ih =>
    have hspellings : (Layer.items w n (done ++ [x])).spellings = (Layer.items w n done).spellings ++ x.spellings := by
      simp [Layer.spellings]
    rw [Layer.Lacks, List.length_append, List.length_singleton] at lacks
    rw [hspellings, spelled_append, List.length_append] at hsize
    rw [List.flatMap_append, List.flatMap_singleton, List.forall_mem_append] at hpassed
    have hbefore := ih (fun v hv => Nat.lt_of_succ_lt (lacks v hv)) (by omega) hpassed.1
    have hitem : feed lim (.within ((Layer.items w n done).frame :: frames)) (x.spellings.map (·.token)) =
        place x.tree ((Layer.items w n done).frame :: frames) :=
      feed_item hlim (by simp [Open, Layer.frame]) hroom (by rw [Item.encode]; omega) hpassed.2
    rw [hspellings, List.map_append, feed_append, hbefore, ok_bind, hitem, place_more_items lacks]

theorem feed_keys_layer {w : Option Width} {n : Nat} {done : List (Strand × Item)} {frames : List Frame}
    (hopen : Open frames) (lacks : (Layer.keys w n done).Lacks)
    (hsize : (spelled (Layer.keys w n done).spellings).length ≤ lim.size)
    (passed : ∀ m ∈ (Layer.keys w n done).heads frames.length, ¬ m.Exceeds lim) :
    feed lim (.within frames) ((Layer.keys w n done).spellings.map (·.token)) =
      .ok (.within ((Layer.keys w n done).frame :: frames)) := by
  obtain ⟨hfirst, hpassed⟩ := List.forall_mem_cons.1 passed
  have hroom : frames.length + 1 ≤ lim.depth := Nat.lt_of_not_le fun hdeep => hfirst (.inl hdeep)
  clear passed
  induction done using List.reverseRecOn with
  | nil => exact feed_map hlim hopen lacks hfirst
  | append_singleton done e ih =>
    have hspellings : (Layer.keys w n (done ++ [e])).spellings =
        (Layer.keys w n done).spellings ++ .text e.1 :: e.2.spellings := by
      simp [Layer.spellings, entrySpelling]
    rw [Layer.Lacks, List.length_append, List.length_singleton] at lacks
    rw [hspellings, spelled_append, spelled_cons, List.length_append, List.length_append] at hsize
    rw [List.flatMap_append, List.flatMap_singleton, List.forall_mem_append] at hpassed
    have hbefore := ih (fun v hv => Nat.lt_of_succ_lt (lacks v hv)) (by omega) hpassed.1
    have hvalue : feed lim (.within ((Layer.value w n done e.1).frame :: frames)) (e.2.spellings.map (·.token)) =
        place e.2.tree ((Layer.value w n done e.1).frame :: frames) :=
      feed_item hlim (by simp [Open, Layer.frame]) hroom (by rw [Item.encode]; omega) hpassed.2
    rw [hspellings, List.map_append, feed_append, hbefore, ok_bind, List.map_cons]
    calc
      feed lim (.within ((Layer.keys w n done).frame :: frames))
          ((Spelling.text e.1).token :: e.2.spellings.map (·.token)) =
          feed lim (.within ((Layer.value w n done e.1).frame :: frames)) (e.2.spellings.map (·.token)) :=
        Item.feed_key _ _ _ _ _
      _ = .ok (.within ((Layer.keys w n (done ++ [e])).frame :: frames)) := by rw [hvalue, place_more_entries lacks]

theorem feed_layer {l : Layer} {frames : List Frame} (hopen : Open frames) (lacks : l.Lacks)
    (hsize : (spelled l.spellings).length ≤ lim.size) (passed : ∀ m ∈ l.heads frames.length, ¬ m.Exceeds lim) :
    feed lim (.within frames) (l.spellings.map (·.token)) = .ok (.within (l.frame :: frames)) := by
  rcases l with ⟨w, n, done⟩ | ⟨w, n, done⟩ | ⟨w, n, done, key⟩
  · exact feed_items_layer hlim hopen lacks hsize passed
  · exact feed_keys_layer hlim hopen lacks hsize passed
  · have hspellings : (Layer.value w n done key).spellings =
        (Layer.keys w n done).spellings ++ [.text key] := rfl
    rw [hspellings, spelled_append, List.length_append] at hsize
    rw [hspellings, List.map_append, feed_append, feed_keys_layer hlim hopen lacks (by omega) passed, ok_bind]
    exact (Item.feed_key _ _ _ _ _).trans (feed_nil _)

/-- The tokens before a point lead to the frames of the containers that are open there. -/
theorem feed_ahead {layers : List Layer} (point : Point (Met.Exceeds lim) layers)
    (hsize : (spelled (ahead layers)).length ≤ lim.size) :
    feed lim (.within []) ((ahead layers).map (·.token)) = .ok (.within (layers.map Layer.frame)) := by
  induction layers with
  | nil => rfl
  | cons l outer ih =>
    have hready : ∀ m ∈ outer, m.Ready := point.ready
    have hpassed := point.passed
    rw [ahead, spelled_append, List.length_append] at hsize
    rw [met, List.forall_mem_append, ← List.length_map Layer.frame] at hpassed
    rw [ahead, List.map_append, feed_append, ih point.outer (by omega), ok_bind,
      feed_layer hlim (open_of_ready hready) (point.lacks l List.mem_cons_self) (by omega) hpassed.2, List.map_cons]

end

theorem sound_keys {w : Option Width} {n : Nat} {done : List (Strand × Item)} (h : (Layer.keys w n done).Fits) :
    ∀ s ∈ (Layer.keys w n done).spellings, s.Sound := by
  obtain ⟨hannounced, hdone⟩ := h
  rw [Layer.spellings, List.forall_mem_cons, List.forall_mem_flatMap]
  refine ⟨Spelling.sound_map hannounced, fun e he => ?_⟩
  rw [entrySpelling, List.forall_mem_cons]
  exact ⟨Spelling.sound_text (hdone e he).1, (hdone e he).2.sound⟩

theorem Layer.Fits.sound {l : Layer} (h : l.Fits) : ∀ s ∈ l.spellings, s.Sound := by
  rcases l with ⟨w, n, done⟩ | ⟨w, n, done⟩ | ⟨w, n, done, key⟩
  · obtain ⟨hannounced, hdone⟩ := h
    rw [spellings, List.forall_mem_cons, List.forall_mem_flatMap]
    exact ⟨Spelling.sound_array hannounced, fun x hx => (hdone x hx).sound⟩
  · exact sound_keys h
  · obtain ⟨hannounced, hdone, hkey⟩ := h
    have hkeys := sound_keys ⟨hannounced, hdone⟩
    rw [show (Layer.value w n done key).spellings = (Layer.keys w n done).spellings ++ [.text key] from rfl,
      List.forall_mem_append, List.forall_mem_singleton]
    exact ⟨hkeys, Spelling.sound_text hkey⟩

theorem sound_ahead {layers : List Layer} (h : ∀ l ∈ layers, l.Fits) : ∀ s ∈ ahead layers, s.Sound := by
  induction layers with
  | nil => simp [ahead]
  | cons l outer ih =>
    obtain ⟨hl, houter⟩ := List.forall_mem_cons.1 h
    rw [ahead, List.forall_mem_append]
    exact ⟨ih houter, hl.sound⟩

/-- The first head that exceeds the limits is where reading ends, whatever comes after it, but
for one with the greatest count, which is refused for its depth alone. -/
theorem read_of_meets {depth : Nat} {body : List UInt8} {m : Met} (hlength : body.length < 0xffffffffffffffff)
    (h : MeetsFirst (Met.Exceeds ⟨depth, body.length⟩) body m)
    (hcount : m.count = some 0xffffffffffffffff → m.TooDeep ⟨depth, body.length⟩) :
    read depth body = .error (m.rejection ⟨depth, body.length⟩) := by
  obtain @⟨layers, w, n, head, rest, point, ready, opens, announced, meets⟩ := h
  have hhead : head.Sound := by
    rcases opens with rfl | rfl
    · exact Spelling.sound_array announced
    · exact Spelling.sound_map announced
  have hsound : ∀ s ∈ ahead layers ++ [head], s.Sound := by
    rw [List.forall_mem_append, List.forall_mem_singleton]
    exact ⟨sound_ahead point.fits, hhead⟩
  obtain ⟨fuel, hread⟩ := read_spelled hsound depth rest
  generalize hlim : Limits.mk depth (spelled (ahead layers ++ [head]) ++ rest).length = lim at hread point meets hcount ⊢
  have hsize : (spelled (ahead layers)).length ≤ lim.size := by
    simp only [← hlim, spelled_append, List.length_append]
    omega
  replace hlength : lim.size < 0xffffffffffffffff := by simpa only [← hlim] using hlength
  have hguard : guard lim (layers.map Layer.frame) (w.bind fun _ => Cbor.announced n) =
      .error (Met.rejection lim ⟨layers.length, w.map fun _ => n⟩) := by
    change _ → lim.depth ≤ layers.length at hcount
    rw [← List.length_map Layer.frame] at meets hcount ⊢
    exact guard_refuses (open_of_ready ready) announced meets hcount
  have hstep : step lim (layers.map Layer.frame) head.token =
      .error (Met.rejection lim ⟨layers.length, w.map fun _ => n⟩) := by
    rcases opens with rfl | rfl
    · rw [Spelling.token_array, step, hguard, error_bind]
    · rw [Spelling.token_map, step, hguard, error_bind]
  rw [hread, List.map_append, feed_append, feed_ahead hlength point hsize, ok_bind, List.map_singleton, feed_within,
    hstep, error_bind, proceed]

end

end TurnCodec.Cbor
