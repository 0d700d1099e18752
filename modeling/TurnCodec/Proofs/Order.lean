import TurnCodec.Proofs.History
import TurnCodec.Proofs.Missing
/-! Calls that all succeed may be made in any order. They succeed because no two of them disagree, and
what they leave bound is their pairs of an id and a type; neither depends on the order. Which of two
calls for one pair gave the functions does. -/

namespace TurnCodec

namespace Descriptor

variable {F : TypeFamily} {history : List (Descriptor F)} {c d : Descriptor F}

/-- Two calls share both the id and the type, or neither. -/
def Compatible (c d : Descriptor F) : Prop := c.2.id = d.2.id ↔ c.1 = d.1

theorem Compatible.symm (h : Compatible c d) : Compatible d c :=
  ⟨fun hid => (h.1 hid.symm).symm, fun htype => (h.2 htype.symm).symm⟩

theorem admissible_append : d.Admissible (history ++ [c]) ↔ d.Admissible history ∧ Compatible c d := by
  constructor
  · intro h
    refine ⟨⟨h.nonempty, h.unreserved, fun b hb => ?_, fun b hb => ?_⟩, ?_⟩
    · exact h.sameType b (List.mem_append_left _ hb)
    · exact h.sameId b (List.mem_append_left _ hb)
    · exact ⟨h.sameType c List.mem_concat_self, h.sameId c List.mem_concat_self⟩
  · rintro ⟨h, hc⟩
    refine ⟨h.nonempty, h.unreserved, fun b hb => ?_, fun b hb => ?_⟩
    · rcases List.mem_append.1 hb with hb | hb
      · exact h.sameType b hb
      · rw [List.mem_singleton.1 hb]
        exact hc.1
    · rcases List.mem_append.1 hb with hb | hb
      · exact h.sameId b hb
      · rw [List.mem_singleton.1 hb]
        exact hc.2

end Descriptor

/-- All that can be asked of a registry. -/
@[ext]
structure Answers (F : TypeFamily) where
  ofId : String → Option (Descriptor F)
  ofType : F.Key → Option (Descriptor F)
  contains : String → Bool
  size : Nat
  ids : List String

/-- The answers agree up to the functions of a descriptor. -/
structure Answers.Alike {F : TypeFamily} (a b : Answers F) : Prop where
  ofId : ∀ id, (a.ofId id).map Descriptor.pair = (b.ofId id).map Descriptor.pair
  ofType : ∀ k, (a.ofType k).map Descriptor.pair = (b.ofType k).map Descriptor.pair
  contains : a.contains = b.contains
  size : a.size = b.size
  ids : a.ids = b.ids

namespace Registry

variable {F : TypeFamily} {R R' : Registry F} {calls other : List (Descriptor F)}

def answers (R : Registry F) : Answers F where
  ofId := R.byId?
  ofType k := (R.byType? k).map (⟨k, ·⟩)
  contains := R.contains
  size := R.size
  ids := R.ids

theorem accepted_sublist (R : Registry F) (calls : List (Descriptor F)) : (R.accepted calls).Sublist calls := by
  induction calls generalizing R with
  | nil => exact List.Sublist.refl _
  | cons d calls ih =>
    rw [accepted]
    split
    · exact (ih _).cons_cons d
    · exact (ih _).cons d

theorem accepted_cons_eq {d : Descriptor F} :
    R.accepted (d :: calls) = d :: calls ↔ R.accepts d = true ∧ (R.after d.2).accepted calls = calls := by
  rw [accepted]
  by_cases h : R.accepts d = true
  · rw [if_pos h, List.cons.injEq, and_iff_right rfl, and_iff_right h]
  · rw [if_neg h]
    refine ⟨fun hsame => ?_, fun hyes => absurd hyes.1 h⟩
    have hlength := (accepted_sublist (R.after d.2) calls).length_le
    rw [hsame, List.length_cons] at hlength
    omega

theorem Sound.admissible_after (hR : R.Sound) {c d : Descriptor F} (h : R.accepts d = true) :
    c.Admissible (R.after d.2).bindings ↔ c.Admissible R.bindings ∧ d.Compatible c := by
  rw [← Descriptor.admissible_append]
  have same : ∀ p, p ∈ (R.after d.2).bindings.map Descriptor.pair ↔ p ∈ (R.bindings ++ [d]).map Descriptor.pair := by
    intro p
    rw [hR.mem_pairs_after h, List.map_append, List.mem_append, List.map_singleton, List.mem_singleton]
  exact ⟨fun hc => hc.of_pairs fun p hp => (same p).2 hp, fun hc => hc.of_pairs fun p hp => (same p).1 hp⟩

/-- All calls succeed if each could be the first, and no two disagree. -/
theorem Sound.accepted_eq_self (hR : R.Sound) :
    R.accepted calls = calls ↔ (∀ d ∈ calls, d.Admissible R.bindings) ∧ calls.Pairwise Descriptor.Compatible := by
  induction calls generalizing R with
  | nil => simp [accepted]
  | cons d calls ih =>
    rw [accepted_cons_eq, List.forall_mem_cons, List.pairwise_cons, hR.accepts_iff]
    constructor
    · rintro ⟨hd, hcalls⟩
      obtain ⟨hadmissible, hpairwise⟩ := (ih (hR.after d.2)).1 hcalls
      have hd' := hR.accepts_iff.2 hd
      exact ⟨⟨hd, fun c hc => ((hR.admissible_after hd').1 (hadmissible c hc)).1⟩,
        fun c hc => ((hR.admissible_after hd').1 (hadmissible c hc)).2, hpairwise⟩
    · rintro ⟨⟨hd, hcalls⟩, hcompatible, hpairwise⟩
      refine ⟨hd, (ih (hR.after d.2)).2 ⟨fun c hc => ?_, hpairwise⟩⟩
      exact (hR.admissible_after (hR.accepts_iff.2 hd)).2 ⟨hcalls c hc, hcompatible c hc⟩

theorem accepted_perm (hperm : calls.Perm other) (hall : accepted ∅ calls = calls) : accepted ∅ other = other := by
  obtain ⟨hadmissible, hpairwise⟩ := Sound.empty.accepted_eq_self.1 hall
  refine Sound.empty.accepted_eq_self.2 ⟨fun d hd => hadmissible d (hperm.mem_iff.2 hd), ?_⟩
  exact (hperm.pairwise_iff fun h => h.symm).1 hpairwise

theorem Sound.nodup_pairs (hR : R.Sound) : (R.bindings.map Descriptor.pair).Nodup := by
  apply List.Nodup.of_map Prod.fst
  rw [List.map_map]
  exact hR.ids

theorem Sound.pair_byId? (hR : R.Sound) {id : String} {p : String × F.Key} :
    (R.answers.ofId id).map Descriptor.pair = some p ↔ p ∈ R.bindings.map Descriptor.pair ∧ p.1 = id := by
  simp only [answers, Option.map_eq_some_iff, hR.byId?_eq_some, List.mem_map]
  constructor
  · rintro ⟨c, ⟨hc, hid⟩, rfl⟩
    exact ⟨⟨c, hc, rfl⟩, hid⟩
  · rintro ⟨⟨c, hc, rfl⟩, hid⟩
    exact ⟨c, ⟨hc, hid⟩, rfl⟩

theorem Sound.pair_byType? (hR : R.Sound) {k : F.Key} {p : String × F.Key} :
    (R.answers.ofType k).map Descriptor.pair = some p ↔ p ∈ R.bindings.map Descriptor.pair ∧ p.2 = k := by
  simp only [answers, Option.map_map, Option.map_eq_some_iff, hR.byType?_eq_some, List.mem_map]
  constructor
  · rintro ⟨b, hb, rfl⟩
    exact ⟨⟨_, hb, rfl⟩, rfl⟩
  · rintro ⟨⟨⟨j, b⟩, hb, rfl⟩, rfl⟩
    exact ⟨b, hb, rfl⟩

/-- Registries that bind the same pairs are told apart by functions only. -/
theorem Sound.alike (hR : R.Sound) (hR' : R'.Sound)
    (h : ∀ p, p ∈ R.bindings.map Descriptor.pair ↔ p ∈ R'.bindings.map Descriptor.pair) :
    R.answers.Alike R'.answers := by
  have hperm : (R.bindings.map Descriptor.pair).Perm (R'.bindings.map Descriptor.pair) :=
    (List.perm_ext_iff_of_nodup hR.nodup_pairs hR'.nodup_pairs).2 h
  have hids : R.ids = R'.ids := by
    have hmapped := hperm.map Prod.fst
    rw [List.map_map, List.map_map] at hmapped
    exact mergeSort_congr hmapped
  refine ⟨fun id => ?_, fun k => ?_, funext fun id => ?_, ?_, hids⟩
  · exact Option.ext fun p => by rw [hR.pair_byId?, hR'.pair_byId?, h]
  · exact Option.ext fun p => by rw [hR.pair_byType?, hR'.pair_byType?, h]
  · exact Bool.eq_iff_iff.2 (by rw [answers, answers, ← mem_ids, ← mem_ids, hids])
  · simpa [answers, size] using hperm.length_eq

theorem run_alike (hperm : calls.Perm other) (hall : accepted ∅ calls = calls) :
    (run ∅ calls).answers.Alike (run ∅ other).answers := by
  refine (Sound.empty.run calls).alike (Sound.empty.run other) fun p => ?_
  rw [mem_pairs_history, mem_pairs_history, hall, accepted_perm hperm hall]
  exact (hperm.map Descriptor.pair).mem_iff

/-- Calls that succeed and repeat nothing are all kept. -/
theorem Sound.bindings_run (hR : R.Sound) (hall : R.accepted calls = calls)
    (hnew : ((R.bindings ++ calls).map Descriptor.pair).Nodup) : (R.run calls).bindings = R.bindings ++ calls := by
  induction calls generalizing R with
  | nil => exact (List.append_nil _).symm
  | cons d calls ih =>
    obtain ⟨hd, hcalls⟩ := accepted_cons_eq.1 hall
    have hadded : R.after d.2 = ⟨R.bindings ++ [d]⟩ := by
      rcases hR.answer d with ⟨hno, -⟩ | ⟨-, -, hold, -⟩ | ⟨-, -, -, hadded⟩
      · rw [hd] at hno
        cases hno
      · rw [List.map_append, List.map_cons] at hnew
        exact absurd List.mem_cons_self (List.disjoint_of_nodup_append hnew (Descriptor.mem_pairs.2 hold))
      · exact hadded
    have hbindings : (R.after d.2).bindings = R.bindings ++ [d] := by rw [hadded]
    change ((R.after d.2).run calls).bindings = _
    rw [ih (hR.after d.2) hcalls, hbindings, List.append_assoc, List.singleton_append]
    rwa [hbindings, List.append_assoc, List.singleton_append]

theorem Sound.byId?_perm (hR : R.Sound) (hR' : R'.Sound) (h : R.bindings.Perm R'.bindings) : R.byId? = R'.byId? :=
  funext fun id => Option.ext fun c => by rw [hR.byId?_eq_some, hR'.byId?_eq_some, h.mem_iff]

theorem Sound.byType?_perm (hR : R.Sound) (hR' : R'.Sound) (h : R.bindings.Perm R'.bindings) : R.byType? = R'.byType? :=
  funext fun k => Option.ext fun b => by rw [hR.byType?_eq_some, hR'.byType?_eq_some, h.mem_iff]

theorem run_perm_bindings (hperm : calls.Perm other) (hall : accepted ∅ calls = calls)
    (hnew : (calls.map Descriptor.pair).Nodup) : (run ∅ calls).bindings.Perm (run ∅ other).bindings := by
  have hnew' : (other.map Descriptor.pair).Nodup := (hperm.map _).nodup_iff.1 hnew
  rw [Sound.empty.bindings_run hall hnew, Sound.empty.bindings_run (accepted_perm hperm hall) hnew']
  exact hperm

theorem Sound.answers_perm (hR : R.Sound) (hR' : R'.Sound) (h : R.bindings.Perm R'.bindings) :
    R.answers = R'.answers := by
  have halike : R.answers.Alike R'.answers := hR.alike hR' fun p => (h.map Descriptor.pair).mem_iff
  have hid : R.answers.ofId = R'.answers.ofId := hR.byId?_perm hR' h
  have htype : R.answers.ofType = R'.answers.ofType := by rw [answers, answers, hR.byType?_perm hR' h]
  exact Answers.ext hid htype halike.contains halike.size halike.ids

end Registry

section
variable {F : TypeFamily} {R R' : Registry F}

theorem Extension.toWire_congr (h : R.byType? = R'.byType?) : toWire R = toWire R' := by
  funext key x
  rcases x with t | ⟨k, v⟩
  · cases t <;> rfl
  · rw [toWire, toWire, h]

theorem Extension.ofWire_congr (h : R.byId? = R'.byId?) : ofWire R = ofWire R' := by
  funext key w
  unfold ofWire resolve
  rw [h]

end

namespace Tables

variable {F : TypeFamily} [Hashable F.Key]

def answers (T : Tables F) : Answers F where
  ofId := T.ofId?
  ofType := T.ofType?
  contains := T.contains
  size := T.size
  ids := T.ids

theorem answers_run (calls : List (Descriptor F)) : (run ∅ calls).answers = (Registry.run ∅ calls).answers := by
  have hT : (run ∅ calls).Shows (Registry.run ∅ calls) := shows_empty.run calls
  exact Answers.ext (funext hT.ofId) (funext hT.ofType) (funext hT.contains) hT.sizeById
    (hT.ids (Registry.Sound.empty.run calls))

end Tables

/-- Calls that all succeed do so in any order, and leave a registry that answers alike. If none
repeats another, it gives the same answers, and reads and writes the same. -/
theorem Registry.run_perm {F : TypeFamily} [Hashable F.Key] {calls other : List (Descriptor F)}
    (hperm : calls.Perm other) (hall : accepted ∅ calls = calls) :
    let R := run ∅ calls
    let R' := run ∅ other
    let T := Tables.run ∅ calls
    let T' := Tables.run ∅ other
    accepted ∅ other = other ∧ Tables.accepted ∅ other = other ∧
    R.answers.Alike R'.answers ∧ T.answers.Alike T'.answers ∧
    ((calls.map Descriptor.pair).Nodup →
      R.answers = R'.answers ∧ T.answers = T'.answers ∧
      (∀ r, Response.toWire R r = Response.toWire R' r) ∧ (∀ r, T.toWire r = T'.toWire r) ∧
      (∀ w, Response.ofWire R w = Response.ofWire R' w) ∧ ∀ w, T.ofWire w = T'.ofWire w) := by
  intro R R' T T'
  have hR : R.Sound := Sound.empty.run calls
  have hR' : R'.Sound := Sound.empty.run other
  have hT : T.Shows R := Tables.shows_empty.run calls
  have hT' : T'.Shows R' := Tables.shows_empty.run other
  have hother : accepted ∅ other = other := accepted_perm hperm hall
  have halike : R.answers.Alike R'.answers := run_alike hperm hall
  refine ⟨hother, (Tables.shows_empty.accepted other).trans hother, halike, ?_, fun hnew => ?_⟩
  · rw [Tables.answers_run, Tables.answers_run]
    exact halike
  have hbindings : R.bindings.Perm R'.bindings := run_perm_bindings hperm hall hnew
  have hanswers : R.answers = R'.answers := hR.answers_perm hR' hbindings
  have hwrite : ∀ r, Response.toWire R r = Response.toWire R' r := fun r => by
    rw [Response.toWire, Response.toWire, Extension.toWire_congr (hR.byType?_perm hR' hbindings)]
  have hread : ∀ w, Response.ofWire R w = Response.ofWire R' w := fun w => by
    rw [Response.ofWire, Response.ofWire, Extension.ofWire_congr (hR.byId?_perm hR' hbindings)]
  refine ⟨hanswers, ?_, hwrite, fun r => ?_, hread, fun w => ?_⟩
  · rw [Tables.answers_run, Tables.answers_run]
    exact hanswers
  · rw [hT.toWire, hT'.toWire, hwrite]
  · rw [hT.ofWire, hT'.ofWire, hread]

instance : Hashable TypeFamily.marks.Key := inferInstanceAs (Hashable Bool)

/-- Of two calls for one pair, the first gives the functions. -/
example : (Registry.run ∅ Registry.insistent).byId? "vendor.Truth" = some ⟨(), .truth⟩ := rfl

theorem Registry.run_perm_marks :
    (marks [true, false]).answers.ids = ["vendor.Seen", "vendor.Sent"] ∧
    Response.marked.toWire (marks [true, false]) = Response.marked.toWire (marks [false, true]) := by
  have swapped : [(⟨false, .mark false⟩ : Descriptor .marks), ⟨true, .mark true⟩].Perm
      [⟨true, .mark true⟩, ⟨false, .mark false⟩] := .swap _ _ _
  obtain ⟨-, -, halike, -, hsame⟩ := run_perm swapped rfl
  obtain ⟨-, -, hwrite, -⟩ := hsame (by decide)
  refine ⟨halike.ids.symm.trans ?_, (hwrite _).symm⟩
  exact List.mergeSort_of_pairwise (by decide)

end TurnCodec
