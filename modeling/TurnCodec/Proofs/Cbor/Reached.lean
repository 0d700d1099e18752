import TurnCodec.Proofs.Cbor.Met
/-! Where reading stands is always a point of the body: each token that is read leads from one
point to the next, so the guards refuse nothing but the first head that they are to refuse. -/

namespace TurnCodec.Cbor

namespace Layer

/-- A container with one more item in it. Of a map that waits for a key the item is the key. -/
def push (x : Item) : Layer → Layer
  | items w n done => items w n (done ++ [x])
  | keys w n done =>
    match x with
    | .text s => value w n done s
    | _ => keys w n done
  | value w n done key => keys w n (done ++ [(key, x)])

def Takes (x : Item) : Layer → Prop
  | keys _ _ _ => ∃ s, x = .text s
  | _ => True

def width : Layer → Option Width
  | items w _ _ | keys w _ _ | value w _ _ _ => w

/-- No entry is to come, or none is announced. -/
def Full : Layer → Prop
  | items w n done => w = none ∨ n = done.length
  | keys w n done => w = none ∨ n = done.length
  | value _ _ _ _ => False

/-- The item that a container is once it is closed. -/
def item : Layer → Item
  | items w _ done => .array w done
  | keys w _ done | value w _ done _ => .map w done

variable {l : Layer} {x : Item}

theorem spellings_push (h : l.Takes x) : (l.push x).spellings = l.spellings ++ x.spellings := by
  rcases l with ⟨w, n, done⟩ | ⟨w, n, done⟩ | ⟨w, n, done, key⟩
  · simp [push, spellings]
  · obtain ⟨s, rfl⟩ := h
    rfl
  · simp [push, spellings, entrySpelling]

theorem heads_push (h : l.Takes x) (outer : Nat) : (l.push x).heads outer = l.heads outer ++ x.heads (outer + 1) := by
  rcases l with ⟨w, n, done⟩ | ⟨w, n, done⟩ | ⟨w, n, done, key⟩
  · simp [push, heads]
  · obtain ⟨s, rfl⟩ := h
    simp [push, heads, Item.heads]
  · simp [push, heads]

theorem fits_push (hl : l.Fits) (hx : x.Fits) (h : l.Takes x) : (l.push x).Fits := by
  rcases l with ⟨w, n, done⟩ | ⟨w, n, done⟩ | ⟨w, n, done, key⟩
  · refine ⟨hl.1, ?_⟩
    rw [List.forall_mem_append, List.forall_mem_singleton]
    exact ⟨hl.2, hx⟩
  · obtain ⟨s, rfl⟩ := h
    exact ⟨hl.1, hl.2, hx.self⟩
  · refine ⟨hl.1, ?_⟩
    rw [List.forall_mem_append, List.forall_mem_singleton]
    exact ⟨hl.2.1, hl.2.2, hx⟩

theorem spellings_item (h : l.Full) : l.item.spellings = l.spellings ++ ending l.width := by
  rcases l with ⟨w, n, done⟩ | ⟨w, n, done⟩ | ⟨w, n, done, key⟩
  · rw [item, Item.spellings, Item.itemSpellings_eq]
    rcases h with rfl | rfl <;> rfl
  · rw [item, Item.spellings, Item.entrySpellings_eq]
    rcases h with rfl | rfl <;> rfl
  · exact absurd h id

theorem heads_item (h : l.Full) (outer : Nat) : l.item.heads outer = l.heads outer := by
  rcases l with ⟨w, n, done⟩ | ⟨w, n, done⟩ | ⟨w, n, done, key⟩
  · rw [item, Item.heads, Item.itemHeads_eq]
    rcases h with rfl | rfl <;> rfl
  · rw [item, Item.heads, Item.entryHeads_eq]
    rcases h with rfl | rfl <;> rfl
  · exact absurd h id

theorem fits_item (hl : l.Fits) (h : l.Full) : l.item.Fits := by
  have announced {w : Option Width} {n k : Nat} (hn : ∀ v ∈ w, v.Fits n) (hfull : w = none ∨ n = k) :
      ∀ v ∈ w, v.Fits k := by
    rcases hfull with rfl | rfl
    · simp
    · exact hn
  rcases l with ⟨w, n, done⟩ | ⟨w, n, done⟩ | ⟨w, n, done, key⟩
  · exact Item.all_array.2 ⟨announced hl.1 h, hl.2⟩
  · exact Item.all_map.2 ⟨⟨announced hl.1 h, fun e he => (hl.2 e he).1⟩, fun e he => (hl.2 e he).2⟩
  · exact absurd h id

/-- What lacks an entry, and would lack none with one more, is announced with so many. -/
theorem last_lacking {w : Option Width} {n k : Nat} (hl : ∀ v ∈ w, k < n) (h : ¬ ∀ v ∈ w, k + 1 < n) :
    ∃ v, w = some v ∧ n = k + 1 := by
  rcases w with _ | v
  · exact absurd (by simp) h
  · have := hl v rfl
    simp only [Option.mem_some_iff, forall_eq'] at h
    exact ⟨v, rfl, by omega⟩

/-- An item stays in the container, or closes it. -/
theorem place_push (hl : l.Lacks) (h : l.Takes x) (outer : List Frame) :
    (l.push x).Lacks ∧ place x.tree (l.frame :: outer) = .ok (.within ((l.push x).frame :: outer)) ∨
    (l.push x).Full ∧ ending (l.push x).width = [] ∧
      place x.tree (l.frame :: outer) = place (l.push x).item.tree outer := by
  rcases l with ⟨w, n, done⟩ | ⟨w, n, done⟩ | ⟨w, n, done, key⟩
  · by_cases hlack : ∀ v ∈ w, done.length + 1 < n
    · refine .inl ⟨?_, place_more_items hlack⟩
      rwa [push, Lacks, List.length_append, List.length_singleton]
    · obtain ⟨v, rfl, hn⟩ := last_lacking hl hlack
      refine .inr ⟨.inr (by simpa using hn), rfl, ?_⟩
      rw [frame, Option.map_some, show n - done.length = 1 by omega, place_last_item, push, item, Item.tree,
        Item.itemTrees_eq]
      simp
  · obtain ⟨s, rfl⟩ := h
    exact .inl ⟨hl, place_key _ _ _ _⟩
  · by_cases hlack : ∀ v ∈ w, done.length + 1 < n
    · refine .inl ⟨?_, place_more_entries hlack⟩
      rwa [push, Lacks, List.length_append, List.length_singleton]
    · obtain ⟨v, rfl, hn⟩ := last_lacking hl hlack
      refine .inr ⟨.inr (by simpa using hn), rfl, ?_⟩
      rw [frame, Option.map_some, show n - done.length = 1 by omega, place_last_value, push, item, Item.tree_map]
      simp [Item.fieldsAfter]

end Layer

/-- Only a text is put where a key belongs. -/
theorem place_untaken {l : Layer} {x : Item} (h : ¬ l.Takes x) (outer : List Frame) :
    place x.tree (l.frame :: outer) = .error .malformed := by
  rcases l with ⟨w, n, done⟩ | ⟨w, n, done⟩ | ⟨w, n, done, key⟩
  · exact absurd trivial h
  · cases x with
    | text s => exact absurd ⟨s, rfl⟩ h
    | _ => rfl
  · exact absurd trivial h

/-- What reading comes to over bytes, unless they hold a head with the property: it is refused as
malformed, or the body is complete, or a point is reached that the bytes spell out. -/
inductive Reached (P : Met → Prop) (before : List UInt8) : Except Rejection Progress → Prop
  | meets {m : Met} {outcome : Except Rejection Progress} (h : ∀ rest, MeetsFirst P (before ++ rest) m) :
      Reached P before outcome
  | malformed : Reached P before (.error .malformed)
  | complete (t : Tree) : Reached P before (.ok (.complete t))
  | within {layers : List Layer} (point : Point P layers) (spells : spelled (ahead layers) = before) :
      Reached P before (.ok (.within (layers.map Layer.frame)))

section
variable {P : Met → Prop}

theorem Point.start : Point P [] := ⟨by simp, by simp, by simp, by simp [met]⟩

theorem Point.cons {l : Layer} {outer : List Layer} (point : Point P outer) (fits : l.Fits) (lacks : l.Lacks)
    (ready : ∀ m ∈ outer, m.Ready) (passed : ∀ m ∈ l.heads outer.length, ¬ P m) : Point P (l :: outer) where
  fits := List.forall_mem_cons.2 ⟨fits, point.fits⟩
  lacks := List.forall_mem_cons.2 ⟨lacks, point.lacks⟩
  ready := ready
  passed := List.forall_mem_append.2 ⟨point.passed, passed⟩

/-- Where items lead on, so does a container that all entries are there of. -/
theorem Reached.of_full {l : Layer} {layers : List Layer}
    (items : ∀ x : Item, x.Fits → (∀ m ∈ x.heads layers.length, ¬ P m) →
      Reached P (spelled (ahead layers ++ x.spellings)) (place x.tree (layers.map Layer.frame)))
    (fits : l.Fits) (passed : ∀ m ∈ l.heads layers.length, ¬ P m) (full : l.Full) (closed : ending l.width = []) :
    Reached P (spelled (ahead (l :: layers))) (place l.item.tree (layers.map Layer.frame)) := by
  have hitem : l.item.spellings = l.spellings := by rw [Layer.spellings_item full, closed, List.append_nil]
  rw [ahead, ← hitem]
  exact items l.item (Layer.fits_item fits full) (by rwa [Layer.heads_item full])

/-- An item leads from the point before it to the one after it. -/
theorem reached_place {layers : List Layer} {x : Item} (point : Point P layers) (hx : x.Fits)
    (passed : ∀ m ∈ x.heads layers.length, ¬ P m) :
    Reached P (spelled (ahead layers ++ x.spellings)) (place x.tree (layers.map Layer.frame)) := by
  induction layers generalizing x with
  | nil => exact .complete _
  | cons l outer ih =>
    rw [List.map_cons]
    by_cases htakes : l.Takes x
    · have hfits := Layer.fits_push (point.fits l List.mem_cons_self) hx htakes
      have hheads : ∀ m ∈ (l.push x).heads outer.length, ¬ P m := by
        rw [Layer.heads_push htakes, List.forall_mem_append]
        exact ⟨fun m hm => point.passed m (List.mem_append_right _ hm), passed⟩
      have hspellings : ahead (l :: outer) ++ x.spellings = ahead (l.push x :: outer) := by
        rw [ahead, ahead, Layer.spellings_push htakes, List.append_assoc]
      rw [hspellings]
      rcases Layer.place_push (point.lacks l List.mem_cons_self) htakes (outer.map Layer.frame) with
        ⟨hlacks, hplace⟩ | ⟨hfull, hclosed, hplace⟩
      · rw [hplace]
        exact .within (point.outer.cons hfits hlacks point.ready hheads) rfl
      · rw [hplace]
        exact .of_full (fun y => ih point.outer) hfits hheads hfull hclosed
    · rw [place_untaken htakes]
      exact .malformed

theorem heads_scalar {x : Item} (h : x.IsScalar) (outer : Nat) : x.heads outer = [] := by
  cases x with
  | array w items => exact absurd h id
  | map w entries => exact absurd h id
  | _ => rfl

/-- The stop of a container whose entries are not announced. -/
theorem reached_stop {l : Layer} {outer : List Layer} (point : Point P (l :: outer)) (hfull : l.Full)
    (hw : l.width = none) :
    Reached P (spelled (ahead (l :: outer)) ++ Spelling.stop.bytes) (place l.item.tree (outer.map Layer.frame)) := by
  have hspellings : ahead outer ++ l.item.spellings = ahead (l :: outer) ++ [.stop] := by
    rw [Layer.spellings_item hfull, hw, ahead, List.append_assoc]
    rfl
  have hheads : ∀ m ∈ l.item.heads outer.length, ¬ P m := by
    rw [Layer.heads_item hfull]
    exact fun m hm => point.passed m (List.mem_append_right _ hm)
  have hreached := reached_place point.outer (Layer.fits_item (point.fits l List.mem_cons_self) hfull) hheads
  rwa [hspellings, spelled_append, spelled, spelled, List.flatMap_singleton] at hreached

theorem count_cases (w : Option Width) (n : Nat) :
    w.map (fun _ => n) = some 0 ∧ n = 0 ∧ ending w = [] ∨ w.map (fun _ => n) ≠ some 0 ∧ ∀ v ∈ w, 0 < n := by
  rcases w with _ | v
  · exact .inr ⟨by simp, by simp⟩
  · rcases n with _ | n
    · exact .inl ⟨rfl, rfl, rfl⟩
    · exact .inr ⟨by simp, fun _ _ => n.succ_pos⟩

end

section
variable {lim : Limits} (hlim : lim.size < 0xffffffffffffffff)
include hlim

/-- The head of a container leads to the point in it, or after it where it has no entries. -/
theorem reached_opening (l : Layer) (frame : Option Nat → Frame) {layers : List Layer} {w : Option Width} {n : Nat}
    {head : Spelling} (hframe : frame (w.map fun _ => n) = l.frame)
    (point : Point (Met.Exceeds lim) layers) (opens : head = .array w n ∨ head = .map w n)
    (fitting : ∀ v ∈ w, v.Fits n) (fits : l.Fits) (hspellings : l.spellings = [head])
    (hheads : l.heads layers.length = [⟨layers.length, w.map fun _ => n⟩])
    (fresh : w.map (fun _ => n) = some 0 ∧ l.Full ∧ ending l.width = [] ∨ w.map (fun _ => n) ≠ some 0 ∧ l.Lacks) :
    Reached (Met.Exceeds lim) (spelled (ahead layers) ++ head.bytes)
      (guard lim (layers.map Layer.frame) (w.bind fun _ => announced n) >>= fun _ =>
        if (w.bind fun _ => announced n) = some 0 then place l.item.tree (layers.map Layer.frame)
        else .ok (.within (frame (w.bind fun _ => announced n) :: layers.map Layer.frame))) := by
  have hbytes : spelled (ahead layers) ++ head.bytes = spelled (ahead layers ++ [head]) := by simp [spelled]
  rw [hbytes]
  by_cases hready : ∀ m ∈ layers, m.Ready
  · by_cases hexceeds : Met.Exceeds lim ⟨layers.length, w.map fun _ => n⟩
    · exact .meets fun rest => .intro rest point hready opens fitting hexceeds
    rw [bind_announced_of_not_exceeds hlim hexceeds]
    have hguard : guard lim (layers.map Layer.frame) (w.map fun _ => n) = .ok () := by
      refine guard_passes (open_of_ready hready) ?_
      rwa [List.length_map]
    have hpassed : ∀ m ∈ l.heads layers.length, ¬ Met.Exceeds lim m := by rwa [hheads, List.forall_mem_singleton]
    rw [hguard, ok_bind, ← hspellings, ← ahead]
    rcases fresh with ⟨hcount, hfull, hclosed⟩ | ⟨hcount, hlacks⟩
    · rw [if_pos hcount]
      exact .of_full (fun x => reached_place point) fits hpassed hfull hclosed
    · rw [if_neg hcount, hframe]
      exact .within (point.cons fits hlacks hready hpassed) rfl
  · rcases layers with _ | ⟨m, outer⟩
    · exact absurd (by simp) hready
    · have hm : ¬ m.Ready := fun hm => hready (List.forall_mem_cons.2 ⟨hm, point.ready⟩)
      rcases m with _ | _ | _
      · exact absurd trivial hm
      · exact .malformed
      · exact absurd trivial hm
/-- A token leads from the point before it to the one after it. -/
theorem reached_step {layers : List Layer} {token : Token} {bytes : List UInt8} (point : Point (Met.Exceeds lim) layers)
    (told : token.Told bytes) :
    Reached (Met.Exceeds lim) (spelled (ahead layers) ++ bytes) (step lim (layers.map Layer.frame) token) := by
  cases told with
  | scalar hx fits =>
    have hreached := reached_place point (Item.fits_scalar hx fits) (by simp [heads_scalar hx])
    rwa [spelled_append] at hreached
  | @array w n fits =>
    rw [Spelling.token_array]
    refine reached_opening hlim (.items w n []) (.items []) rfl point (.inl rfl) fits ⟨fits, by simp⟩
      rfl rfl ?_
    rcases count_cases w n with ⟨hcount, hn, hclosed⟩ | hlacks
    · exact .inl ⟨hcount, .inr hn, hclosed⟩
    · exact .inr hlacks
  | @map w n fits =>
    rw [Spelling.token_map]
    refine reached_opening hlim (.keys w n []) (.keys []) rfl point (.inr rfl) fits ⟨fits, by simp⟩
      rfl rfl ?_
    rcases count_cases w n with ⟨hcount, hn, hclosed⟩ | hlacks
    · exact .inl ⟨hcount, .inr hn, hclosed⟩
    · exact .inr hlacks
  | stop =>
    rcases layers with _ | ⟨l, outer⟩
    · exact .malformed
    rcases l with ⟨_ | v, n, done⟩ | ⟨_ | v, n, done⟩ | ⟨w, n, done, key⟩
    · have hreached := reached_stop point (.inl rfl) rfl
      rwa [Layer.item, Item.tree, Item.itemTrees_eq, ← (done.map Item.tree).reverse_reverse] at hreached
    · exact .malformed
    · have hreached := reached_stop point (.inl rfl) rfl
      rwa [Layer.item, Item.tree_map] at hreached
    · exact .malformed
    · exact .malformed
  | tag fits => exact .malformed

/-- However far reading has come, what is refused but not as malformed meets a head that exceeds the limits. -/
theorem resume_eq_error {fuel : Nat} {layers : List Layer} {bs : List UInt8} {e : Rejection}
    (point : Point (Met.Exceeds lim) layers) (h : resume lim fuel (layers.map Layer.frame) bs = .error e)
    (he : e ≠ .malformed) : ∃ m, MeetsFirst (Met.Exceeds lim) (spelled (ahead layers) ++ bs) m := by
  induction fuel generalizing layers bs with
  | zero => exact absurd (Except.error.inj h).symm he
  | succ fuel ih =>
    cases hread : Token.read? bs with
    | none =>
      simp only [resume, hread] at h
      exact absurd (Except.error.inj h).symm he
    | some told =>
      obtain ⟨token, rest⟩ := told
      obtain ⟨bytes, htold, rfl⟩ := Token.told_of_read? hread
      have hreached := reached_step hlim point htold
      rw [resume_succ _ _ hread] at h
      rw [← List.append_assoc]
      generalize step lim (layers.map Layer.frame) token = outcome at h hreached
      cases hreached with
      | meets hmeets => exact ⟨_, hmeets rest⟩
      | malformed => exact absurd (Except.error.inj h).symm he
      | complete t =>
        simp only [proceed] at h
        split at h
        · cases h
        · exact absurd (Except.error.inj h).symm he
      | within next spells =>
        rw [← spells]
        exact ih next h

end

/-- A body that is refused, but not as malformed, meets a first head that exceeds the limits. -/
theorem read_eq_error {depth : Nat} {body : List UInt8} {e : Rejection} (hlength : body.length < 0xffffffffffffffff)
    (h : read depth body = .error e) (he : e ≠ .malformed) :
    ∃ m, MeetsFirst (Met.Exceeds ⟨depth, body.length⟩) body m :=
  resume_eq_error hlength .start h he

theorem place_eq_error {t : Tree} {frames : List Frame} {e : Rejection} (h : place t frames = .error e) :
    e = .malformed := by
  induction frames generalizing t with
  | nil => cases h
  | cons f frames ih =>
    rcases f with ⟨done, _ | _ | _ | n⟩ | ⟨done, left⟩ | ⟨done, _ | _ | _ | n, key⟩
    · cases h
    · exact ih h
    · exact ih h
    · cases h
    · unfold place at h
      split at h
      · cases h
      · exact (Except.error.inj h).symm
    · cases h
    · exact ih h
    · exact ih h
    · cases h

theorem guard_eq_tooMany {lim : Limits} {frames : List Frame} {count : Option Nat} {n size : Nat}
    (h : guard lim frames count = .error (.tooMany n size)) : count = some n := by
  unfold guard at h
  split at h
  · cases h
  split at h
  · cases h
  split at h
  · split at h
    · cases h
      rfl
    · cases h
  · cases h

/-- Too many entries are those that a token announces. -/
theorem step_eq_tooMany {lim : Limits} {frames : List Frame} {token : Token} {n size : Nat}
    (h : step lim frames token = .error (.tooMany n size)) : token = .array (some n) ∨ token = .map (some n) := by
  have opening {count : Option Nat} {t : Tree} {p : Progress}
      (h : (guard lim frames count >>= fun _ => if count = some 0 then place t frames else .ok p) =
        .error (.tooMany n size)) : count = some n := by
    rcases hguard : guard lim frames count with why | _
    · rw [hguard] at h
      cases h
      exact guard_eq_tooMany hguard
    · rw [hguard, ok_bind] at h
      split at h
      · cases place_eq_error h
      · cases h
  cases token with
  | scalar t => cases place_eq_error h
  | array count => exact .inl (congrArg Token.array (opening h))
  | map count => exact .inr (congrArg Token.map (opening h))
  | stop =>
    simp only [step] at h
    split at h
    · cases place_eq_error h
    · cases place_eq_error h
    · cases h
  | tag => cases h

/-- No token announces the greatest count. -/
theorem Token.Told.count_ne {token : Token} {bytes : List UInt8} (told : token.Told bytes) :
    token ≠ .array (some 0xffffffffffffffff) ∧ token ≠ .map (some 0xffffffffffffffff) := by
  have hcount (w : Option Width) (n : Nat) : (w.bind fun _ => announced n) ≠ some 0xffffffffffffffff := by
    rcases w with _ | w
    · simp
    · by_cases hn : n = 0xffffffffffffffff <;> simp [announced, hn]
  cases told with
  | @array w n fits =>
    rw [Spelling.token_array]
    exact ⟨fun h => hcount w n (Token.array.inj h), by simp⟩
  | @map w n fits =>
    rw [Spelling.token_map]
    exact ⟨by simp, fun h => hcount w n (Token.map.inj h)⟩
  | _ => simp

theorem resume_ne_tooMany (lim : Limits) (fuel : Nat) (frames : List Frame) (bs : List UInt8) (size : Nat) :
    resume lim fuel frames bs ≠ .error (.tooMany 0xffffffffffffffff size) := by
  induction fuel generalizing frames bs with
  | zero => simp [resume]
  | succ fuel ih =>
    rcases hread : Token.read? bs with _ | ⟨token, rest⟩
    · simp [resume, hread]
    obtain ⟨bytes, htold, -⟩ := Token.told_of_read? hread
    rw [resume_succ _ _ hread]
    rcases hstep : step lim frames token with why | t | frames'
    · intro h
      obtain rfl : why = .tooMany 0xffffffffffffffff size := Except.error.inj h
      rcases step_eq_tooMany hstep with rfl | rfl
      · exact htold.count_ne.1 rfl
      · exact htold.count_ne.2 rfl
    · rw [proceed]
      split <;> simp
    · exact ih frames' rest

end TurnCodec.Cbor
