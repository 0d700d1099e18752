import TurnCodec.Proofs.Cbor.Body
/-! What an item denotes, said without a decoder: an array holds what its items denote, in
order, and an object holds under each key what the last entry under the key denotes, and
nothing of the entries before it. -/

namespace TurnCodec.Cbor

inductive Denotes : Item → Tree → Prop
  | null : Denotes .null .null
  | bool (b : Bool) : Denotes (.bool b) (.bool b)
  | natural (w : Width) (n : UInt64) : Denotes (.natural w n) (.int (.ofUInt64 n))
  | negative (w : Width) (n : UInt64) : Denotes (.negative w n) (.int (.complement n))
  | half (bits : UInt16) : Denotes (.half bits) (.float (.ofBits16 bits))
  | single (bits : UInt32) : Denotes (.single bits) (.float (.ofBits32 bits))
  | double (x : Binary64) : Denotes (.double x) (.float x)
  | text (s : Strand) : Denotes (.text s) (.text s.text)
  | bytes (s : Strand) : Denotes (.bytes s) (.bytes s.content none)
  | array {w : Option Width} {items : List Item} {trees : List Tree} (each : List.Forall₂ Denotes items trees) :
      Denotes (.array w items) (.array trees)
  | map {w : Option Width} {entries : List (Strand × Item)} {fields : List (String × Tree)}
      (ascending : Ascending fields) (keys : ∀ key, fields.lookup key = none ↔ ∀ e ∈ entries, e.1.text ≠ key)
      (last : ∀ before e after t, entries = before ++ e :: after → (∀ d ∈ after, d.1.text ≠ e.1.text) →
        fields.lookup e.1.text = some t → Denotes e.2 t) : Denotes (.map w entries) (.object fields)

/-- A key of some entry has a last entry. -/
theorem exists_last {entries : List (Strand × Item)} {key : String} (h : ∃ e ∈ entries, e.1.text = key) :
    ∃ before e after, entries = before ++ e :: after ∧ e.1.text = key ∧ ∀ d ∈ after, d.1.text ≠ key := by
  induction entries with
  | nil => simp at h
  | cons d entries ih =>
    by_cases hlater : ∃ e ∈ entries, e.1.text = key
    · obtain ⟨before, e, after, rfl, he, hafter⟩ := ih hlater
      exact ⟨d :: before, e, after, rfl, he, hafter⟩
    · push Not at hlater
      obtain ⟨e, he, hkey⟩ := h
      rcases List.mem_cons.1 he with rfl | he
      · exact ⟨[], e, entries, rfl, hkey, hlater⟩
      · exact absurd hkey (hlater e he)

namespace Item

theorem lookup_entryTrees_last {before after : List (Strand × Item)} {e : Strand × Item}
    (h : ∀ d ∈ after, d.1.text ≠ e.1.text) : (entryTrees (before ++ e :: after)).reverse.lookup e.1.text = some e.2.tree := by
  have hafter : (entryTrees after).reverse.lookup e.1.text = none := by
    apply lookup_eq_none
    rw [entryTrees_eq]
    intro f hf
    obtain ⟨d, hd, rfl⟩ := List.mem_map.1 (List.mem_reverse.1 hf)
    exact h d hd
  rw [entryTrees_eq, List.map_append, List.map_cons, List.reverse_append, List.reverse_cons, List.append_assoc,
    List.lookup_append, ← entryTrees_eq after, hafter, List.singleton_append, lookup_cons_eq, if_pos rfl]
  rfl

theorem lookup_entryTrees_eq_none {entries : List (Strand × Item)} {key : String} :
    (entryTrees entries).reverse.lookup key = none ↔ ∀ e ∈ entries, e.1.text ≠ key := by
  rw [entryTrees_eq, List.lookup_eq_none_iff]
  simp only [List.mem_reverse, List.forall_mem_map, bne_iff_ne]
  exact forall₂_congr fun e _ => ne_comm

theorem lookup_fieldsAfter_nil (entries : List (Strand × Item)) (key : String) :
    (fieldsAfter entries []).lookup key = (entryTrees entries).reverse.lookup key := by
  rw [lookup_fieldsAfter]
  simp

theorem ascending_fieldsAfter (entries : List (Strand × Item)) {fields : List (String × Tree)}
    (h : Ascending fields) : Ascending (fieldsAfter entries fields) := by
  induction entries generalizing fields with
  | nil => exact h
  | cons e entries ih => exact ih (ascending_putEntry e.1.text e.2.tree h)

theorem denotes_tree (x : Item) : Denotes x x.tree := by
  induction x with
  | array w items ih =>
    rw [tree, itemTrees_eq]
    exact .array (List.forall₂_map_right_iff.2 (List.forall₂_same.2 ih))
  | map w entries ih =>
    rw [tree_map]
    refine .map (ascending_fieldsAfter entries .nil) (fun key => ?_) fun before e after t hentries hafter ht => ?_
    · rw [lookup_fieldsAfter_nil, lookup_entryTrees_eq_none]
    · rw [lookup_fieldsAfter_nil, hentries, lookup_entryTrees_last hafter] at ht
      obtain rfl := Option.some.inj ht
      exact ih e (by simp [hentries])
  | null => exact .null
  | bool b => exact .bool b
  | natural w n => exact .natural w n
  | negative w n => exact .negative w n
  | half bits => exact .half bits
  | single bits => exact .single bits
  | double x => exact .double x
  | text s => exact .text s
  | bytes s => exact .bytes s

/-- An item denotes one tree. -/
theorem eq_tree_of_denotes {x : Item} {t : Tree} (h : Denotes x t) : t = x.tree := by
  induction x generalizing t with
  | array w items ih =>
    cases h with
    | array each =>
      rw [tree, itemTrees_eq]
      congr 1
      induction each with
      | nil => rfl
      | cons hx _ rest =>
        obtain ⟨here, later⟩ := List.forall_mem_cons.1 ih
        rw [List.map_cons, here hx, rest later]
  | map w entries ih =>
    cases h with
    | map ascending keys last =>
      rw [tree_map]
      congr 1
      apply ascending.ext (ascending_fieldsAfter entries .nil)
      intro key
      rw [lookup_fieldsAfter_nil]
      by_cases hkey : ∃ e ∈ entries, e.1.text = key
      · obtain ⟨before, e, after, rfl, rfl, hafter⟩ := exists_last hkey
        rw [lookup_entryTrees_last hafter]
        cases ht : List.lookup e.1.text _ with
        | none => exact absurd rfl ((keys e.1.text).1 ht e (by simp))
        | some t => rw [ih e (by simp) (last before e after t rfl hafter ht)]
      · push Not at hkey
        rw [(keys key).2 hkey, lookup_entryTrees_eq_none.2 hkey]
  | _ => cases h; rfl

end Item

theorem denotes_iff {x : Item} {t : Tree} : Denotes x t ↔ t = x.tree :=
  ⟨Item.eq_tree_of_denotes, fun h => h ▸ x.denotes_tree⟩

end TurnCodec.Cbor
