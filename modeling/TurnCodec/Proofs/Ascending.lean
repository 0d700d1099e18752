import Mathlib.Data.List.Basic
import TurnCodec.Dict
/-! Entries in ascending key order: they are determined by what their keys are bound
to, and a dictionary made of them holds them as they stand. -/

namespace TurnCodec

variable {α β : Type}

theorem Ascending.tail {e : String × α} {es : List (String × α)} (h : Ascending (e :: es)) : Ascending es :=
  (List.pairwise_cons.1 h).2

theorem Ascending.head_lt {e d : String × α} {es : List (String × α)} (h : Ascending (e :: es)) (hd : d ∈ es) :
    e.1 < d.1 :=
  (List.pairwise_cons.1 h).1 d hd

theorem ascending_singleton (e : String × α) : Ascending [e] := List.pairwise_singleton _ _

/-- It is enough that each key comes before the next. -/
theorem ascending_cons_cons {e d : String × α} {es : List (String × α)} :
    Ascending (e :: d :: es) ↔ e.1 < d.1 ∧ Ascending (d :: es) := by
  constructor
  · intro h
    exact ⟨h.head_lt List.mem_cons_self, h.tail⟩
  · rintro ⟨hlt, h⟩
    refine List.pairwise_cons.2 ⟨fun c hc => ?_, h⟩
    rcases List.mem_cons.1 hc with rfl | hc
    · exact hlt
    · exact String.lt_trans hlt (h.head_lt hc)

/-- Only the keys count. -/
theorem Ascending.of_keys {es : List (String × α)} {ds : List (String × β)} (h : Ascending es)
    (hk : ds.map (·.1) = es.map (·.1)) : Ascending ds := by
  have key := List.pairwise_map.2 h
  rw [← hk] at key
  exact List.pairwise_map.1 key

theorem Ascending.map {es : List (String × α)} (h : Ascending es) (f : String × α → β) :
    Ascending (es.map fun e => (e.1, f e)) :=
  h.of_keys (by simp)

theorem Ascending.nodup {es : List (String × α)} (h : Ascending es) : (es.map (·.1)).Nodup :=
  List.pairwise_map.2 (h.imp fun hlt => Std.ne_of_lt hlt)

theorem lookup_cons_eq (j : String) (e : String × α) (es : List (String × α)) :
    (e :: es).lookup j = if j = e.1 then some e.2 else es.lookup j :=
  lookup_entry j e.1 e.2 es

theorem lookup_eq_none {k : String} {es : List (String × α)} (h : ∀ e ∈ es, e.1 ≠ k) : es.lookup k = none := by
  rw [List.lookup_eq_none_iff]
  intro e he
  simpa using (h e he).symm

theorem lookup_map (f : String → α → β) (es : List (String × α)) (k : String) :
    (es.map fun e => (e.1, f e.1 e.2)).lookup k = (es.lookup k).map (f k) := by
  induction es with
  | nil => rfl
  | cons e es ih =>
    rw [List.map_cons, lookup_cons_eq, lookup_cons_eq, ih]
    by_cases hk : k = e.1
    · simp [hk]
    · simp [hk]

theorem mem_of_lookup {k : String} {v : α} {es : List (String × α)} (h : es.lookup k = some v) : (k, v) ∈ es := by
  obtain ⟨as, bs, rfl, -⟩ := List.lookup_eq_some_iff.1 h
  simp

theorem lookup_of_nodup {es : List (String × α)} (h : (es.map (·.1)).Nodup) {e : String × α} (he : e ∈ es) :
    es.lookup e.1 = some e.2 := by
  induction es with
  | nil => cases he
  | cons d es ih =>
    rw [List.map_cons, List.nodup_cons] at h
    obtain ⟨hd, hes⟩ := h
    rw [lookup_cons_eq]
    rcases List.mem_cons.1 he with rfl | he
    · rw [if_pos rfl]
    · have hne : e.1 ≠ d.1 := by
        intro hkey
        rw [← hkey] at hd
        exact hd (List.mem_map_of_mem he)
      rw [if_neg hne, ih hes he]

/-- Ascending entries are equal when all keys are bound to the same. -/
theorem Ascending.ext {es ds : List (String × α)} (he : Ascending es) (hd : Ascending ds)
    (h : ∀ k, es.lookup k = ds.lookup k) : es = ds := by
  induction es generalizing ds with
  | nil =>
    cases ds with
    | nil => rfl
    | cons d ds => simpa [lookup_cons_eq] using h d.1
  | cons e es ih =>
    cases ds with
    | nil => simpa [lookup_cons_eq] using h e.1
    | cons d ds =>
      have hed := h e.1
      have hde := h d.1
      simp only [lookup_cons_eq, if_pos] at hed hde
      -- the least key of one list is bound in the other, so neither is below the other
      have key : e.1 = d.1 := by
        by_contra hne
        rw [if_neg hne] at hed
        rw [if_neg (Ne.symm hne)] at hde
        have hlt := hd.head_lt (mem_of_lookup hed.symm)
        exact String.lt_asymm hlt (he.head_lt (mem_of_lookup hde))
      rw [if_pos key] at hed
      have hval : e = d := Prod.ext key (Option.some.inj hed)
      subst hval
      rw [ih he.tail hd.tail fun k => ?_]
      have hk := h k
      simp only [lookup_cons_eq] at hk
      by_cases hke : k = e.1
      · subst hke
        rw [lookup_eq_none fun d hd' => (Std.ne_of_lt (he.head_lt hd')).symm,
          lookup_eq_none fun d hd' => (Std.ne_of_lt (hd.head_lt hd')).symm]
      · simpa [hke] using hk

theorem putEntry_append {k : String} (v : α) {es : List (String × α)} (h : ∀ e ∈ es, e.1 < k) :
    putEntry k v es = es ++ [(k, v)] := by
  induction es with
  | nil => rfl
  | cons d es ih =>
    obtain ⟨j, u⟩ := d
    have hj : j < k := h (j, u) (by simp)
    rw [putEntry, if_neg (String.lt_asymm hj), if_neg (Std.ne_of_lt hj).symm, List.cons_append,
      ih fun e he => h e (List.mem_cons_of_mem _ he)]

theorem foldl_putEntry {es ds : List (String × α)} (h : Ascending (ds ++ es)) :
    es.foldl (fun ds e => putEntry e.1 e.2 ds) ds = ds ++ es := by
  induction es generalizing ds with
  | nil => simp
  | cons e es ih =>
    have below : ∀ d ∈ ds, d.1 < e.1 := fun d hd => (List.pairwise_append.1 h).2.2 d hd e (by simp)
    rw [List.foldl_cons, putEntry_append e.2 below, ih (by simpa using h)]
    simp

namespace Dict

theorem foldl_add (d : Dict α) {es : List (String × α)} (h : Ascending (d.entries ++ es)) :
    (es.foldl (fun d e => d.add e.1 e.2) d).entries = d.entries ++ es := by
  induction es generalizing d with
  | nil => simp
  | cons e es ih =>
    have below : ∀ a ∈ d.entries, a.1 < e.1 := fun a ha => (List.pairwise_append.1 h).2.2 a ha e (by simp)
    have hadd : (d.add e.1 e.2).entries = d.entries ++ [e] := by
      have hnone : d.get? e.1 = none := lookup_eq_none fun a ha => Std.ne_of_lt (below a ha)
      simp [add, hnone, put, putEntry_append e.2 below]
    rw [List.foldl_cons, ih _ (by simpa [hadd] using h), hadd]
    simp

theorem entries_ofList {es : List (String × α)} (h : Ascending es) : (ofList es).entries = es := by
  rw [ofList, foldl_add ∅ h]
  rfl

theorem ofList_entries (d : Dict α) : ofList d.entries = d :=
  ext (entries_ofList d.ascending)

/-- Changes every value, under the same keys. -/
def map (f : String → α → β) (d : Dict α) : Dict β :=
  ⟨d.entries.map fun e => (e.1, f e.1 e.2), d.ascending.map fun e => f e.1 e.2⟩

end Dict

end TurnCodec
