import TurnCodec.Proofs.Cbor.Item
/-! Reading an item: it is put where it belongs, or refused for its depth and nothing
else. The guard on announced entries never acts on a well-formed item. -/

namespace TurnCodec.Cbor

/-- A value may come next: no map waits for a key. -/
def Open (frames : List Frame) : Prop := ∀ done left outer, frames ≠ .keys done left :: outer

theorem guard_eq {lim : Limits} {frames : List Frame} {count : Option Nat} (hopen : Open frames)
    (hcount : ∀ n ∈ count, n ≤ lim.size) :
    guard lim frames count = if frames.length < lim.depth then .ok () else .error (.tooDeep lim.depth) := by
  unfold guard
  split
  · exact absurd rfl (hopen _ _ _)
  · by_cases hdepth : frames.length < lim.depth
    · rw [if_neg (by omega), if_pos hdepth]
      cases count with
      | none => rfl
      | some n =>
        have := hcount n rfl
        exact if_neg (by omega)
    · rw [if_pos (by omega), if_neg hdepth]

theorem step_array {lim : Limits} {frames : List Frame} {count : Option Nat} (hopen : Open frames)
    (hcount : ∀ n ∈ count, n ≤ lim.size) : step lim frames (.array count) =
      if frames.length < lim.depth then
        if count = some 0 then place (.array []) frames else .ok (.within (.items [] count :: frames))
      else .error (.tooDeep lim.depth) := by
  rw [step, guard_eq hopen hcount]
  split <;> rfl

theorem step_map {lim : Limits} {frames : List Frame} {count : Option Nat} (hopen : Open frames)
    (hcount : ∀ n ∈ count, n ≤ lim.size) : step lim frames (.map count) =
      if frames.length < lim.depth then
        if count = some 0 then place (.object []) frames else .ok (.within (.keys [] count :: frames))
      else .error (.tooDeep lim.depth) := by
  rw [step, guard_eq hopen hcount]
  split <;> rfl

section
variable (t : Tree) (done : List Tree) (fields : List (String × Tree)) (key : String) (n : Nat) (outer : List Frame)

theorem place_item : place t (.items done (some (n + 2)) :: outer) =
    .ok (.within (.items (t :: done) (some (n + 1)) :: outer)) := by simp [place]

theorem place_last_item : place t (.items done (some 1) :: outer) = place (.array (t :: done).reverse) outer := by
  simp [place]

theorem place_free_item : place t (.items done none :: outer) = .ok (.within (.items (t :: done) none :: outer)) := by
  simp [place]

theorem place_key (left : Option Nat) : place (.text key) (.keys fields left :: outer) =
    .ok (.within (.value fields left key :: outer)) := by simp [place]

theorem place_value : place t (.value fields (some (n + 2)) key :: outer) =
    .ok (.within (.keys (putEntry key t fields) (some (n + 1)) :: outer)) := by simp [place]

theorem place_last_value : place t (.value fields (some 1) key :: outer) =
    place (.object (putEntry key t fields)) outer := by
  simp [place]

theorem place_free_value : place t (.value fields none key :: outer) =
    .ok (.within (.keys (putEntry key t fields) none :: outer)) := by simp [place]

end

namespace Item

def tokens (x : Item) : List Token := x.spellings.map (·.token)

theorem tokens_array (w : Option Width) {items : List Item} (h : items.length < 0xffffffffffffffff) :
    (array w items).tokens = .array (w.map fun _ => items.length) ::
      (items.flatMap tokens ++ (ending w).map (·.token)) := by
  rw [tokens, spellings, itemSpellings_eq, List.map_cons, List.map_append, List.map_flatMap,
    Spelling.token_array, Spelling.bind_announced w h]
  rfl

theorem tokens_map (w : Option Width) {entries : List (Strand × Item)} (h : entries.length < 0xffffffffffffffff) :
    (map w entries).tokens = .map (w.map fun _ => entries.length) ::
      ((entries.flatMap fun e => .scalar (.text e.1.text) :: e.2.tokens) ++ (ending w).map (·.token)) := by
  rw [tokens, spellings, entrySpellings_eq, List.map_cons, List.map_append, List.map_flatMap,
    Spelling.token_map, Spelling.bind_announced w h]
  rfl

/-- Feeding an item puts its tree in its place if there is room for its depth. -/
def Fed (lim : Limits) (x : Item) : Prop :=
  ∀ frames, Open frames → frames.length ≤ lim.depth → feed lim (.within frames) x.tokens =
    if frames.length + x.depth ≤ lim.depth then place x.tree frames else .error (.tooDeep lim.depth)

variable {lim : Limits}

theorem feed_place (t : Tree) (frames : List Frame) :
    (place t frames >>= fun p => feed lim p []) = place t frames := by
  cases place t frames <;> simp

theorem fed_scalar {x : Item} (ht : x.tokens = [.scalar x.tree]) (hd : x.depth = 0) : x.Fed lim := by
  intro frames _ hroom
  rw [ht, feed_within, hd, Nat.add_zero, if_pos hroom]
  exact feed_place x.tree frames

/-- Items of an array that announced them, with `done` before them. -/
theorem feed_items {items : List Item} (h : ∀ x ∈ items, x.Fed lim) (hne : items ≠ []) (done : List Tree)
    {outer : List Frame} (hroom : outer.length < lim.depth) :
    feed lim (.within (.items done (some items.length) :: outer)) (items.flatMap tokens) =
      if outer.length + 1 + itemsDepth items ≤ lim.depth then place (.array (done.reverse ++ items.map tree)) outer
      else .error (.tooDeep lim.depth) := by
  induction items generalizing done with
  | nil => exact absurd rfl hne
  | cons x items ih =>
    obtain ⟨hx, hitems⟩ := List.forall_mem_cons.1 h
    have first := hx (.items done (some (items.length + 1)) :: outer) (by simp [Open]) hroom
    rw [List.flatMap_cons, feed_append, List.length_cons, first, itemsDepth, List.length_cons]
    by_cases hdepth : outer.length + 1 + x.depth ≤ lim.depth
    · rw [if_pos hdepth]
      cases items with
      | nil =>
        rw [if_pos (by simpa [itemsDepth] using hdepth), List.length_nil, Nat.zero_add, place_last_item, List.flatMap_nil,
          feed_place, List.reverse_cons, List.map_singleton]
      | cons y items =>
        have hiff : outer.length + 1 + itemsDepth (y :: items) ≤ lim.depth ↔
            outer.length + 1 + max x.depth (itemsDepth (y :: items)) ≤ lim.depth := by omega
        rw [List.length_cons, place_item, ok_bind]
        rw [List.length_cons] at ih
        simp only [ih hitems (by simp) (x.tree :: done), hiff, List.reverse_cons, List.append_assoc, List.map_cons,
          List.singleton_append]
    · rw [if_neg hdepth, if_neg (by omega)]
      rfl

/-- Items of an array that did not announce them. -/
theorem feed_free_items {items : List Item} (h : ∀ x ∈ items, x.Fed lim) (done : List Tree) {outer : List Frame}
    (hroom : outer.length < lim.depth) :
    feed lim (.within (.items done none :: outer)) (items.flatMap tokens) =
      if outer.length + 1 + itemsDepth items ≤ lim.depth then
        .ok (.within (.items ((items.map tree).reverse ++ done) none :: outer))
      else .error (.tooDeep lim.depth) := by
  induction items generalizing done with
  | nil => 
    rw [List.flatMap_nil, feed_nil, itemsDepth, if_pos (by omega)]
    rfl
  | cons x items ih =>
    obtain ⟨hx, hitems⟩ := List.forall_mem_cons.1 h
    have first := hx (.items done none :: outer) (by simp [Open]) hroom
    rw [List.flatMap_cons, feed_append, first, itemsDepth, List.length_cons]
    by_cases hdepth : outer.length + 1 + x.depth ≤ lim.depth
    · have hiff : outer.length + 1 + itemsDepth items ≤ lim.depth ↔
          outer.length + 1 + max x.depth (itemsDepth items) ≤ lim.depth := by omega
      rw [if_pos hdepth, place_free_item, ok_bind, ih hitems (x.tree :: done)]
      simp only [hiff, List.map_cons, List.reverse_cons, List.append_assoc, List.singleton_append]
    · rw [if_neg hdepth, if_neg (by omega)]
      rfl

/-- The fields that entries leave in a map that has some. -/
def fieldsAfter (entries : List (Strand × Item)) (fields : List (String × Tree)) : List (String × Tree) :=
  entries.foldl (fun fields e => putEntry e.1.text e.2.tree fields) fields

theorem tree_map (w : Option Width) (entries : List (Strand × Item)) :
    (map w entries).tree = .object (fieldsAfter entries []) := by
  rw [tree, collect, entryTrees_eq, List.foldl_map, fieldsAfter]

theorem feed_key (fields : List (String × Tree)) (left : Option Nat) (key : String) (outer : List Frame)
    (tokens : List Token) : feed lim (.within (.keys fields left :: outer)) (.scalar (.text key) :: tokens) =
      feed lim (.within (.value fields left key :: outer)) tokens := by
  rw [feed_within, step, place_key, ok_bind]

theorem feed_entries {entries : List (Strand × Item)} (h : ∀ e ∈ entries, e.2.Fed lim) (hne : entries ≠ [])
    (fields : List (String × Tree)) {outer : List Frame} (hroom : outer.length < lim.depth) :
    feed lim (.within (.keys fields (some entries.length) :: outer))
        (entries.flatMap fun e => .scalar (.text e.1.text) :: e.2.tokens) =
      if outer.length + 1 + entriesDepth entries ≤ lim.depth then place (.object (fieldsAfter entries fields)) outer
      else .error (.tooDeep lim.depth) := by
  induction entries generalizing fields with
  | nil => exact absurd rfl hne
  | cons e entries ih =>
    obtain ⟨he, hentries⟩ := List.forall_mem_cons.1 h
    have first := he (.value fields (some (entries.length + 1)) e.1.text :: outer) (by simp [Open]) hroom
    rw [List.flatMap_cons, List.cons_append, feed_key, feed_append, List.length_cons, first, entriesDepth,
      List.length_cons]
    by_cases hdepth : outer.length + 1 + e.2.depth ≤ lim.depth
    · rw [if_pos hdepth]
      cases entries with
      | nil =>
        rw [if_pos (by simpa [entriesDepth] using hdepth), List.length_nil, Nat.zero_add, place_last_value,
          List.flatMap_nil, feed_place]
        rfl
      | cons d entries =>
        have hiff : outer.length + 1 + entriesDepth (d :: entries) ≤ lim.depth ↔
            outer.length + 1 + max e.2.depth (entriesDepth (d :: entries)) ≤ lim.depth := by omega
        rw [List.length_cons, place_value, ok_bind]
        rw [List.length_cons] at ih
        simp only [ih hentries (by simp) (putEntry e.1.text e.2.tree fields), hiff]
        rfl
    · rw [if_neg hdepth, if_neg (by omega)]
      rfl

theorem feed_free_entries {entries : List (Strand × Item)} (h : ∀ e ∈ entries, e.2.Fed lim)
    (fields : List (String × Tree)) {outer : List Frame} (hroom : outer.length < lim.depth) :
    feed lim (.within (.keys fields none :: outer)) (entries.flatMap fun e => .scalar (.text e.1.text) :: e.2.tokens) =
      if outer.length + 1 + entriesDepth entries ≤ lim.depth then
        .ok (.within (.keys (fieldsAfter entries fields) none :: outer))
      else .error (.tooDeep lim.depth) := by
  induction entries generalizing fields with
  | nil =>
    rw [List.flatMap_nil, feed_nil, entriesDepth, if_pos (by omega)]
    rfl
  | cons e entries ih =>
    obtain ⟨he, hentries⟩ := List.forall_mem_cons.1 h
    have first := he (.value fields none e.1.text :: outer) (by simp [Open]) hroom
    rw [List.flatMap_cons, List.cons_append, feed_key, feed_append, first, entriesDepth, List.length_cons]
    by_cases hdepth : outer.length + 1 + e.2.depth ≤ lim.depth
    · have hiff : outer.length + 1 + entriesDepth entries ≤ lim.depth ↔
          outer.length + 1 + max e.2.depth (entriesDepth entries) ≤ lim.depth := by omega
      rw [if_pos hdepth, place_free_value, ok_bind, ih hentries (putEntry e.1.text e.2.tree fields)]
      simp only [hiff]
      rfl
    · rw [if_neg hdepth, if_neg (by omega)]
      rfl

section
variable (hsize : lim.size < 0xffffffffffffffff)
include hsize

theorem fed_array {w : Option Width} {items : List Item} (h : ∀ x ∈ items, x.Fed lim)
    (hcount : items.length ≤ lim.size) : (array w items).Fed lim := by
  intro frames hopen _
  have hsome : ∀ n ∈ w.map fun _ => items.length, n ≤ lim.size := by
    intro n hn
    obtain ⟨_, -, rfl⟩ := Option.map_eq_some_iff.1 hn
    exact hcount
  rw [tokens_array w (Nat.lt_of_le_of_lt hcount hsize), feed_within, step_array hopen hsome, depth]
  by_cases hroom : frames.length < lim.depth
  · rw [if_pos hroom, tree, itemTrees_eq, ← Nat.add_assoc, Nat.add_right_comm]
    cases w with
    | none =>
      rw [if_neg (by simp), ok_bind, feed_append, Option.map_none, feed_free_items h [] hroom]
      by_cases hdepth : frames.length + 1 + itemsDepth items ≤ lim.depth
      · rw [if_pos hdepth, if_pos hdepth, ok_bind, List.append_nil]
        change (place (.array (items.map Item.tree).reverse.reverse) frames >>= fun p => feed lim p []) = _
        rw [feed_place, List.reverse_reverse]
      · rw [if_neg hdepth, if_neg hdepth]
        rfl
    | some w =>
      cases items with
      | nil =>
        rw [Option.map_some, List.length_nil, if_pos rfl, if_pos (by rw [itemsDepth]; omega)]
        exact feed_place _ _
      | cons x items =>
        rw [if_neg (by simp), ok_bind, feed_append, Option.map_some, feed_items h (by simp) [] hroom, List.reverse_nil,
          List.nil_append]
        split
        · exact feed_place _ _
        · rfl
  · rw [if_neg hroom, if_neg (by omega)]
    rfl

theorem fed_map {w : Option Width} {entries : List (Strand × Item)} (h : ∀ e ∈ entries, e.2.Fed lim)
    (hcount : entries.length ≤ lim.size) : (map w entries).Fed lim := by
  intro frames hopen _
  have hsome : ∀ n ∈ w.map fun _ => entries.length, n ≤ lim.size := by
    intro n hn
    obtain ⟨_, -, rfl⟩ := Option.map_eq_some_iff.1 hn
    exact hcount
  rw [tokens_map w (Nat.lt_of_le_of_lt hcount hsize), feed_within, step_map hopen hsome, depth]
  by_cases hroom : frames.length < lim.depth
  · rw [if_pos hroom, tree_map, ← Nat.add_assoc, Nat.add_right_comm]
    cases w with
    | none =>
      rw [if_neg (by simp), ok_bind, feed_append, Option.map_none, feed_free_entries h [] hroom]
      by_cases hdepth : frames.length + 1 + entriesDepth entries ≤ lim.depth
      · rw [if_pos hdepth, if_pos hdepth, ok_bind]
        exact feed_place (.object (fieldsAfter entries [])) frames
      · rw [if_neg hdepth, if_neg hdepth]
        rfl
    | some w =>
      cases entries with
      | nil =>
        rw [Option.map_some, List.length_nil, if_pos rfl, if_pos (by rw [entriesDepth]; omega)]
        exact feed_place _ _
      | cons e entries =>
        rw [if_neg (by simp), ok_bind, feed_append, Option.map_some, feed_entries h (by simp) [] hroom]
        split
        · exact feed_place _ _
        · rfl
  · rw [if_neg hroom, if_neg (by omega)]
    rfl

/-- Every item is fed like that if the limit allows for the entries of its containers. -/
theorem fed (x : Item) (hcount : x.All fun n => n.count ≤ lim.size) : x.Fed lim := by
  induction x with
  | array w items ih =>
    obtain ⟨hhere, hitems⟩ := all_array.1 hcount
    exact fed_array hsize (fun x hx => ih x hx (hitems x hx)) hhere
  | map w entries ih =>
    obtain ⟨hhere, hentries⟩ := all_map.1 hcount
    exact fed_map hsize (fun e he => ih e he (hentries e he)) hhere
  | _ => exact fed_scalar rfl rfl

end

end Item

/-- Sound tokens are fed however the reading goes on after them. -/
theorem read_spelled {ss : List Spelling} (h : ∀ s ∈ ss, s.Sound) (depth : Nat) (rest : List UInt8) :
    ∃ fuel, read depth (spelled ss ++ rest) =
      proceed ⟨depth, (spelled ss ++ rest).length⟩ fuel rest
        (feed ⟨depth, (spelled ss ++ rest).length⟩ (.within []) (ss.map (·.token))) := by
  have hfuel : ss.length ≤ (spelled ss ++ rest).length := by
    have := Item.length_le_flatMap fun s hs => List.length_pos_iff.2 (h s hs).bytes_ne
    rw [List.length_append]
    exact Nat.le_add_right_of_le this
  obtain ⟨fuel, hlength⟩ := Nat.exists_eq_add_of_le hfuel
  refine ⟨fuel, ?_⟩
  rw [← resume_spelled h, ← hlength]
  rfl

/-- A body that is one well-formed item is read as the tree of the item exactly when it
nests within the limit. -/
theorem read_encode {x : Item} (h : x.Fits) (hlength : x.encode.length < 0xffffffffffffffff) (depth : Nat) :
    read depth x.encode = if x.depth ≤ depth then .ok x.tree else .error (.tooDeep depth) := by
  obtain ⟨fuel, hread⟩ := read_spelled h.sound depth []
  rw [List.append_nil] at hread
  let lim : Limits := ⟨depth, x.encode.length⟩
  have hcount : x.All fun n => n.count ≤ lim.size := x.count_le
  have hfed := x.fed hlength hcount [] (by simp [Open]) (Nat.zero_le _)
  rw [List.length_nil, Nat.zero_add, place] at hfed
  calc
    read depth x.encode = proceed lim fuel [] (feed lim (.within []) x.tokens) := hread
    _ = proceed lim fuel [] (if x.depth ≤ depth then .ok (.complete x.tree) else .error (.tooDeep depth)) := by rw [hfed]
    _ = if x.depth ≤ depth then .ok x.tree else .error (.tooDeep depth) := by split <;> rfl

end TurnCodec.Cbor
