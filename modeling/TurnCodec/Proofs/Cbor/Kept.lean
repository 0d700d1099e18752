import TurnCodec.Cbor.Reader
import TurnCodec.Proofs.Ascending
import TurnCodec.Proofs.Outcome
import TurnCodec.Proofs.Tree
/-! What the reader makes of any bytes: a tree as programs keep one, with nothing discarded in
it and the fields of its objects in key order. Every open container is kept like that. -/

namespace TurnCodec

namespace Cbor

namespace Token

/-- A scalar is kept; what opens or ends a container holds nothing. -/
def Kept : Token → Prop
  | scalar t => t.Kept
  | _ => True

theorem kept_map {α : Type} {f : α → Token × List UInt8} (o : Option α) (h : ∀ a, (f a).1.Kept) :
    ∀ p ∈ o.map f, p.1.Kept := by
  intro p hp
  obtain ⟨a, -, rfl⟩ := Option.map_eq_some_iff.1 hp
  exact h a

theorem kept_simple? (info : Nat) (bs : List UInt8) : ∀ p ∈ simple? info bs, p.1.Kept := by
  unfold simple?
  split
  · simp [Kept]
  · simp [Kept]
  · simp [Kept]
  · exact kept_map _ fun _ => Tree.kept_float _
  · exact kept_map _ fun _ => Tree.kept_float _
  · exact kept_map _ fun _ => Tree.kept_float _
  · simp [Kept]
  · simp

theorem kept_read? (bs : List UInt8) : ∀ p ∈ read? bs, p.1.Kept := by
  cases bs with
  | nil => simp [read?]
  | cons b bs =>
    simp only [read?]
    split
    · exact kept_map _ fun _ => Tree.kept_int _
    · exact kept_map _ fun _ => Tree.kept_int _
    · exact kept_map _ fun _ => Tree.kept_bytes _ none
    · exact kept_map _ fun _ => Tree.kept_text _
    · exact kept_map _ fun _ => trivial
    · exact kept_map _ fun _ => trivial
    · exact kept_map _ fun _ => trivial
    · exact kept_simple? _ bs

end Token

/-- What an open container holds is kept, in key order where it has keys. -/
def Frame.Kept : Frame → Prop
  | items done _ => ∀ t ∈ done, t.Kept
  | keys done _ => Ascending done ∧ ∀ f ∈ done, f.2.Kept
  | value done _ _ => Ascending done ∧ ∀ f ∈ done, f.2.Kept

def Progress.Kept : Progress → Prop
  | complete t => t.Kept
  | within frames => ∀ f ∈ frames, f.Kept

theorem kept_putEntry {fields : List (String × Tree)} (h : Ascending fields ∧ ∀ f ∈ fields, f.2.Kept) (key : String)
    {t : Tree} (ht : t.Kept) : Ascending (putEntry key t fields) ∧ ∀ f ∈ putEntry key t fields, f.2.Kept := by
  refine ⟨ascending_putEntry key t h.1, fun f hf => ?_⟩
  rcases mem_putEntry hf with rfl | hf
  · exact ht
  · exact h.2 f hf

theorem kept_place {frames : List Frame} (hframes : ∀ f ∈ frames, f.Kept) {t : Tree} (ht : t.Kept) :
    ∀ p, place t frames = .ok p → p.Kept := by
  induction frames generalizing t with
  | nil =>
    rintro _ ⟨⟩
    exact ht
  | cons f frames ih =>
    obtain ⟨hf, houter⟩ := List.forall_mem_cons.1 hframes
    cases f with
    | items done left =>
      have hdone : ∀ u ∈ t :: done, u.Kept := List.forall_mem_cons.2 ⟨ht, hf⟩
      unfold place
      split
      · rintro _ ⟨⟩
        exact List.forall_mem_cons.2 ⟨hdone, houter⟩
      · apply ih houter
        exact Tree.kept_array.2 fun u hu => hdone u (List.mem_reverse.1 hu)
      · rintro _ ⟨⟩
        exact List.forall_mem_cons.2 ⟨hdone, houter⟩
    | keys done left =>
      unfold place
      split
      · rintro _ ⟨⟩
        exact List.forall_mem_cons.2 ⟨hf, houter⟩
      · rintro _ ⟨⟩
    | value done left key =>
      have hput := kept_putEntry hf key ht
      unfold place
      split
      · rintro _ ⟨⟩
        exact List.forall_mem_cons.2 ⟨hput, houter⟩
      · apply ih houter
        exact Tree.kept_object.2 hput
      · rintro _ ⟨⟩
        exact List.forall_mem_cons.2 ⟨hput, houter⟩

/-- One token keeps what is open as it should be. -/
theorem kept_step (lim : Limits) {frames : List Frame} (hframes : ∀ f ∈ frames, f.Kept) {token : Token}
    (htoken : token.Kept) : ∀ p, step lim frames token = .ok p → p.Kept := by
  cases token with
  | scalar t => exact kept_place hframes htoken
  | array count =>
    intro p h
    obtain ⟨_, -, h⟩ := bind_eq_ok.1 h
    split at h
    · exact kept_place hframes (by simp) p h
    · cases h
      exact List.forall_mem_cons.2 ⟨by simp [Frame.Kept], hframes⟩
  | map count =>
    intro p h
    obtain ⟨_, -, h⟩ := bind_eq_ok.1 h
    split at h
    · exact kept_place hframes (Tree.kept_object.2 ⟨.nil, by simp⟩) p h
    · cases h
      exact List.forall_mem_cons.2 ⟨⟨.nil, by simp⟩, hframes⟩
  | stop =>
    revert hframes
    simp only [step]
    split <;> intro hframes
    · obtain ⟨hf, houter⟩ := List.forall_mem_cons.1 hframes
      apply kept_place houter
      exact Tree.kept_array.2 fun t ht => hf t (List.mem_reverse.1 ht)
    · obtain ⟨hf, houter⟩ := List.forall_mem_cons.1 hframes
      exact kept_place houter (Tree.kept_object.2 hf)
    · rintro _ ⟨⟩
  | tag => rintro _ ⟨⟩

theorem kept_resume (lim : Limits) (fuel : Nat) {frames : List Frame} (hframes : ∀ f ∈ frames, f.Kept)
    (bs : List UInt8) : ∀ t, resume lim fuel frames bs = .ok t → t.Kept := by
  induction fuel generalizing frames bs with
  | zero => rintro _ ⟨⟩
  | succ fuel ih =>
    intro t h
    rw [resume] at h
    split at h
    · cases h
    · rename_i token rest hread
      have hstep := kept_step lim hframes (Token.kept_read? bs _ hread)
      split at h
      · cases h
      · rename_i done hdone
        split at h
        · cases h
          exact hstep _ hdone
        · cases h
      · rename_i open' hopen
        exact ih (hstep _ hopen) rest t h

/-- Whatever the bytes are, a tree that is read from them is kept. -/
theorem kept_read {depth : Nat} {body : List UInt8} {t : Tree} (h : read depth body = .ok t) : t.Kept :=
  kept_resume _ _ (by simp) body t h

end Cbor

end TurnCodec
