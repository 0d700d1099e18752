import TurnCodec.Proofs.Tables
/-! What a call answers is decided by the calls that were accepted before it. A registry keeps of
these the pairs of an id and a type, which is all that later calls are compared with. -/

namespace TurnCodec

namespace Descriptor

variable {F : TypeFamily} {history history' : List (Descriptor F)} {c d : Descriptor F}

/-- What two calls are compared by. -/
def pair (d : Descriptor F) : String × F.Key := (d.2.id, d.1)

/-- The id may be bound, and no call of the history used it with another type, or the type with
another id. -/
structure Admissible (history : List (Descriptor F)) (d : Descriptor F) : Prop where
  nonempty : d.2.id ≠ ""
  unreserved : d.2.id ≠ "json"
  sameType : ∀ c ∈ history, c.2.id = d.2.id → c.1 = d.1
  sameId : ∀ c ∈ history, c.1 = d.1 → c.2.id = d.2.id

/-- The id was used with the type before, by whatever functions. -/
def Repeats (history : List (Descriptor F)) (d : Descriptor F) : Prop := ∃ c ∈ history, c.2.id = d.2.id ∧ c.1 = d.1

theorem mem_pairs : d.pair ∈ history.map pair ↔ d.Repeats history := by
  rw [List.mem_map]
  exact exists_congr fun c => and_congr_right fun _ => Prod.mk_inj

theorem Admissible.of_pairs (h : d.Admissible history) (hsub : history'.map pair ⊆ history.map pair) :
    d.Admissible history' := by
  have found : ∀ c ∈ history', ∃ c' ∈ history, c'.2.id = c.2.id ∧ c'.1 = c.1 := fun c hc =>
    mem_pairs.1 (hsub (List.mem_map_of_mem hc))
  refine ⟨h.nonempty, h.unreserved, fun c hc hid => ?_, fun c hc htype => ?_⟩
  · obtain ⟨c', hc', hid', htype'⟩ := found c hc
    rw [← htype']
    exact h.sameType c' hc' (hid'.trans hid)
  · obtain ⟨c', hc', hid', htype'⟩ := found c hc
    rw [← hid']
    exact h.sameId c' hc' (htype'.trans htype)

end Descriptor

namespace Registry

variable {F : TypeFamily} {R : Registry F}

/-- Whether a call succeeds. -/
def accepts (R : Registry F) (d : Descriptor F) : Bool := (R.register d.2).value.isOk

/-- The calls of a run that succeed, in order. -/
def accepted (R : Registry F) : List (Descriptor F) → List (Descriptor F)
  | [] => []
  | d :: calls => if R.accepts d then d :: (R.after d.2).accepted calls else (R.after d.2).accepted calls

/-- A call is refused, or it repeats what is bound, or it adds a binding. -/
theorem Sound.answer (hR : R.Sound) (d : Descriptor F) :
    (R.accepts d = false ∧ ¬ d.Admissible R.bindings ∧ R.after d.2 = R) ∨
    (R.accepts d = true ∧ d.Admissible R.bindings ∧ d.Repeats R.bindings ∧ R.after d.2 = R) ∨
    (R.accepts d = true ∧ d.Admissible R.bindings ∧ ¬ d.Repeats R.bindings ∧ R.after d.2 = ⟨R.bindings ++ [d]⟩) := by
  have h := R.register_outcome d.2
  unfold accepts Registry.after
  generalize R.register d.2 = m at h ⊢
  cases h with
  | empty hempty => exact .inl ⟨rfl, fun h => h.nonempty hempty, rfl⟩
  | reserved hplain => exact .inl ⟨rfl, fun h => h.unreserved hplain, rfl⟩
  | idTaken hid hk =>
    obtain ⟨hheld, hsame⟩ := hR.byId?_eq_some.1 hid
    exact .inl ⟨rfl, fun h => hk (h.sameType _ hheld hsame), rfl⟩
  | typeTaken hid htype =>
    have hheld := hR.byType?_eq_some.1 htype
    refine .inl ⟨rfl, fun h => byId?_eq_none.1 hid ?_, rfl⟩
    exact List.mem_map.2 ⟨_, hheld, h.sameId _ hheld rfl⟩
  | @repeated held hne hplain hid hk =>
    obtain ⟨hheld, hsame⟩ := hR.byId?_eq_some.1 hid
    refine .inr (.inl ⟨rfl, ⟨hne, hplain, fun c hc h => ?_, fun c hc h => ?_⟩, ⟨held, hheld, hsame, hk⟩, rfl⟩)
    · rw [List.inj_on_of_nodup_map hR.ids hc hheld (h.trans hsame.symm), hk]
    · rw [List.inj_on_of_nodup_map hR.types hc hheld (h.trans hk.symm), hsame]
  | added hne hplain hid htype =>
    have unused : ∀ c ∈ R.bindings, c.2.id ≠ d.2.id := fun c hc hcd => byId?_eq_none.1 hid (List.mem_map.2 ⟨c, hc, hcd⟩)
    have untaken : ∀ c ∈ R.bindings, c.1 ≠ d.1 := fun c hc hcd => byType?_eq_none.1 htype (List.mem_map.2 ⟨c, hc, hcd⟩)
    refine .inr (.inr ⟨rfl, ⟨hne, hplain, fun c hc h => ?_, fun c hc h => ?_⟩, fun ⟨c, hc, h, _⟩ => unused c hc h, rfl⟩)
    · exact absurd h (unused c hc)
    · exact absurd h (untaken c hc)

theorem Sound.accepts_iff (hR : R.Sound) {d : Descriptor F} : R.accepts d = true ↔ d.Admissible R.bindings := by
  rcases hR.answer d with ⟨hno, hd, -⟩ | ⟨hyes, hd, -⟩ | ⟨hyes, hd, -⟩
  · simp [hno, hd]
  · simp [hyes, hd]
  · simp [hyes, hd]

/-- A refused call changes nothing, and neither does a repeated one. -/
theorem Sound.after_same (hR : R.Sound) {d : Descriptor F} (h : R.accepts d = false ∨ d.Repeats R.bindings) :
    R.after d.2 = R := by
  rcases hR.answer d with ⟨-, -, hsame⟩ | ⟨-, -, -, hsame⟩ | ⟨hyes, -, hnew, -⟩
  · exact hsame
  · exact hsame
  · rw [hyes] at h
    exact absurd h (by simpa using hnew)

theorem Sound.mem_pairs_after (hR : R.Sound) {d : Descriptor F} (h : R.accepts d = true) {p : String × F.Key} :
    p ∈ (R.after d.2).bindings.map Descriptor.pair ↔ p ∈ R.bindings.map Descriptor.pair ∨ p = d.pair := by
  rcases hR.answer d with ⟨hno, -⟩ | ⟨-, -, hold, hsame⟩ | ⟨-, -, -, hnew⟩
  · rw [h] at hno
    cases hno
  · rw [hsame, iff_self_or]
    rintro rfl
    exact Descriptor.mem_pairs.2 hold
  · rw [hnew, List.map_append, List.mem_append, List.map_singleton, List.mem_singleton]

/-- A run keeps the pairs that were bound, and adds those of its accepted calls. -/
theorem Sound.mem_pairs_run (hR : R.Sound) (calls : List (Descriptor F)) {p : String × F.Key} :
    p ∈ (R.run calls).bindings.map Descriptor.pair ↔
      p ∈ R.bindings.map Descriptor.pair ∨ p ∈ (R.accepted calls).map Descriptor.pair := by
  induction calls generalizing R with
  | nil => exact (or_iff_left List.not_mem_nil).symm
  | cons d calls ih =>
    change p ∈ ((R.after d.2).run calls).bindings.map Descriptor.pair ↔ _
    rw [ih (hR.after d.2), accepted]
    by_cases h : R.accepts d = true
    · rw [if_pos h, hR.mem_pairs_after h, List.map_cons, List.mem_cons, or_assoc]
    · rw [if_neg h, hR.after_same (.inl (Bool.not_eq_true _ ▸ h))]

/-- After a run from the empty registry, what is bound can be told from the accepted calls. -/
theorem mem_pairs_history {calls : List (Descriptor F)} {p : String × F.Key} :
    p ∈ (run ∅ calls).bindings.map Descriptor.pair ↔ p ∈ (accepted ∅ calls).map Descriptor.pair := by
  rw [Sound.empty.mem_pairs_run, or_iff_right]
  exact List.not_mem_nil

theorem accepts_history {calls : List (Descriptor F)} {d : Descriptor F} :
    (run ∅ calls).accepts d = true ↔ d.Admissible (accepted ∅ calls) := by
  rw [(Sound.empty.run calls).accepts_iff]
  exact ⟨fun h => h.of_pairs fun _ hp => mem_pairs_history.2 hp, fun h => h.of_pairs fun _ hp => mem_pairs_history.1 hp⟩

theorem repeats_history {calls : List (Descriptor F)} {d : Descriptor F} :
    d.Repeats (run ∅ calls).bindings ↔ d.Repeats (accepted ∅ calls) := by
  rw [← Descriptor.mem_pairs, ← Descriptor.mem_pairs, mem_pairs_history]

end Registry

namespace Tables

variable {F : TypeFamily} [Hashable F.Key] {T : Tables F} {R : Registry F}

/-- Whether a call succeeds. -/
def accepts (T : Tables F) (d : Descriptor F) : Bool := (T.insert d).value.1.isOk

/-- The calls of a run that succeed, in order. -/
def accepted (T : Tables F) : List (Descriptor F) → List (Descriptor F)
  | [] => []
  | d :: calls => if T.accepts d then d :: (T.insert d).value.2.accepted calls else (T.insert d).value.2.accepted calls

theorem Shows.accepts (h : T.Shows R) (d : Descriptor F) : T.accepts d = R.accepts d := by
  rw [Tables.accepts, (h.insert d).1, Registry.accepts]
  cases (R.register d.2).value <;> rfl

theorem Shows.accepted (h : T.Shows R) (calls : List (Descriptor F)) : T.accepted calls = R.accepted calls := by
  induction calls generalizing T R with
  | nil => rfl
  | cons d calls ih => rw [Tables.accepted, Registry.accepted, h.accepts, ih (h.insert d).2.2]

/-- Only a successful call for a new id touches the tables. -/
theorem insert_same_or_new (T : Tables F) (d : Descriptor F) :
    (T.insert d).value.2 = T ∨ (T.accepts d = true ∧ T.ofId? d.2.id = none) := by
  unfold accepts insert ofId?
  split_ifs with hempty hplain
  · exact .inl rfl
  · exact .inl rfl
  · rcases T.byId[d.2.id]? with _ | held
    · rcases T.byType[d.1]? with _ | other
      · exact .inr ⟨rfl, rfl⟩
      · exact .inl rfl
    · exact .inl rfl

theorem Shows.insert_same (h : T.Shows R) {d : Descriptor F}
    (hd : T.accepts d = false ∨ d.Repeats R.bindings) : (T.insert d).value.2 = T := by
  rcases T.insert_same_or_new d with hsame | ⟨hyes, hnew⟩
  · exact hsame
  rw [hyes] at hd
  obtain ⟨c, hc, hid, -⟩ := hd.resolve_left nofun
  rw [h.ofId, Registry.byId?_eq_none] at hnew
  exact absurd (List.mem_map.2 ⟨c, hc, hid⟩) hnew

/-- Whether a call succeeds goes by the calls that succeeded before it. One that fails, or that
repeats one of those, leaves all as it was. -/
theorem run_history (before : List (Descriptor F)) (d : Descriptor F) :
    let R : Registry F := Registry.run ∅ before
    let T : Tables F := run ∅ before
    (R.accepts d = true ↔ d.Admissible (Registry.accepted ∅ before)) ∧
    (T.accepts d = true ↔ d.Admissible (accepted ∅ before)) ∧
    (R.accepts d = false ∨ d.Repeats (Registry.accepted ∅ before) → R.after d.2 = R) ∧
    (T.accepts d = false ∨ d.Repeats (accepted ∅ before) → (T.insert d).value.2 = T) := by
  intro R T
  have hR : R.Sound := Registry.Sound.empty.run before
  have hT : T.Shows R := shows_empty.run before
  rw [shows_empty.accepted before]
  refine ⟨Registry.accepts_history, ?_, fun h => ?_, fun h => ?_⟩
  · rw [hT.accepts, Registry.accepts_history]
  · exact hR.after_same (h.imp_right Registry.repeats_history.2)
  · exact hT.insert_same (h.imp_right Registry.repeats_history.2)

end Tables

theorem Tables.run_history_insistent :
    let R : Registry .truth := Registry.run ∅ [⟨(), .truth⟩]
    let T : Tables .truth := run ∅ [⟨(), .truth⟩]
    let again : Descriptor .truth := ⟨(), { Binding.truth with decode := fun _ => .ok false }⟩
    let renamed : Descriptor .truth := ⟨(), { Binding.truth with id := "vendor.Bool" }⟩
    (T.accepts again = true ∧ R.after again.2 = R ∧ (T.insert again).value.2 = T) ∧
      T.accepts renamed = false ∧ R.after renamed.2 = R ∧ (T.insert renamed).value.2 = T := by
  intro R T again renamed
  have history : accepted ∅ [⟨(), .truth⟩] = [(⟨(), .truth⟩ : Descriptor .truth)] := shows_empty.accepted _
  obtain ⟨-, hagain, sameAgain, keepsAgain⟩ := run_history [⟨(), .truth⟩] again
  obtain ⟨-, hrenamed, sameRenamed, keepsRenamed⟩ := run_history [⟨(), .truth⟩] renamed
  rw [history] at hagain keepsAgain hrenamed keepsRenamed
  have admissible : again.Admissible [⟨(), .truth⟩] := by
    refine ⟨by decide, by decide, fun _ _ _ => rfl, fun c hc _ => ?_⟩
    rw [List.mem_singleton.1 hc]
  have repeats : again.Repeats [⟨(), .truth⟩] := ⟨_, List.mem_cons_self, rfl, rfl⟩
  have refused : T.accepts renamed = false := by
    rw [← Bool.not_eq_true, hrenamed]
    exact fun h => absurd (h.sameId _ List.mem_cons_self rfl) (by decide)
  exact ⟨⟨hagain.2 admissible, sameAgain (.inr repeats), keepsAgain (.inr repeats)⟩,
    refused, sameRenamed (.inl rfl), keepsRenamed (.inl refused)⟩

end TurnCodec
