import TurnCodec.Cbor.Builder
import TurnCodec.Proofs.Cbor.Reading
/-! Building in place comes to the same as collecting: between any two tokens the tree of the
builder is what the open containers hold, each put into the next one, and its stack and its
slot are where these are. So the one slot is in use only while it is that of the innermost
container, and the places on the stack never go stale. -/

namespace TurnCodec

theorem putEntry_putEntry {α : Type} (k : String) (u v : α) (es : List (String × α)) :
    putEntry k v (putEntry k u es) = putEntry k v es := by
  induction es with
  | nil => simp [putEntry]
  | cons e es ih =>
    obtain ⟨j, w⟩ := e
    by_cases hlt : k < j
    · simp [putEntry, hlt]
    by_cases heq : k = j
    · simp [putEntry, heq]
    · simp [putEntry, hlt, heq, ih]

namespace Tree

theorem edit_append (f : Tree → Tree) (place more : Place) (t : Tree) :
    edit f (place ++ more) t = edit (edit f more) place t := by
  induction place generalizing t with
  | nil => rfl
  | cons step place ih =>
    cases step with
    | item i => cases t <;> simp [edit, ih]
    | field key => cases t <;> simp [edit, ih]

theorem find?_append (place more : Place) (t : Tree) : find? (place ++ more) t = (find? place t).bind (find? more) := by
  induction place generalizing t with
  | nil => rfl
  | cons step place ih =>
    cases step with
    | item i =>
      cases t with
      | array items => cases h : items[i]? <;> simp [find?, h, ih]
      | _ => rfl
    | field key =>
      cases t with
      | object fields => cases h : fields.lookup key <;> simp [find?, h, ih]
      | _ => rfl

end Tree

namespace Cbor

open TurnCodec.Tree (Place find? edit)

namespace Frame

def level : Frame → Level
  | items _ left => .items left
  | keys _ left => .keys left
  | value _ left _ => .value left

/-- The step to where the next value goes; a map that waits for a key has none. -/
def step : Frame → Tree.Step
  | items done _ => .item done.length
  | keys _ _ => .item 0
  | value _ _ key => .field key

/-- The container with a value where the next one goes. -/
def holding (t : Tree) : Frame → Tree
  | items done _ => .array (done.reverse ++ [t])
  | keys done _ => .object done
  | value done _ key => .object (putEntry key t done)

/-- The container as it stands. The key that came last has a value already, if only a null. -/
def standing : Frame → Tree
  | items done _ => .array done.reverse
  | keys done _ => .object done
  | value done _ key => Tree.withKey key (.object done)

end Frame

/-- Where the next value goes. -/
def next (frames : List Frame) : Place := (frames.map Frame.step).reverse

/-- Where the open containers are, innermost first. -/
def places : List Frame → List Place
  | [] => []
  | _ :: outer => next outer :: places outer

/-- The whole tree, with a value where the next one goes. -/
def embed (t : Tree) (frames : List Frame) : Tree := frames.foldl Frame.holding t

/-- No map waits for a key. -/
def Ready (frames : List Frame) : Prop := ∀ f ∈ frames, ∀ done left, f ≠ .keys done left

theorem next_cons (f : Frame) (outer : List Frame) : next (f :: outer) = next outer ++ [f.step] := by
  simp [next]

theorem length_places (frames : List Frame) : (places frames).length = frames.length := by
  induction frames with
  | nil => rfl
  | cons f outer ih => rw [places, List.length_cons, ih, List.length_cons]

theorem edit_holding (g : Tree → Tree) (f : Frame) (t : Tree) : edit g [f.step] (f.holding t) = f.holding (g t) := by
  cases f with
  | items done left => simp [Frame.step, Frame.holding, edit]
  | keys done left => rfl
  | value done left key => simp [Frame.step, Frame.holding, edit, lookup_putEntry, putEntry_putEntry]

theorem find?_holding {f : Frame} (hf : ∀ done left, f ≠ .keys done left) (t : Tree) :
    find? [f.step] (f.holding t) = some t := by
  cases f with
  | items done left => simp [Frame.step, Frame.holding, find?]
  | keys done left => exact absurd rfl (hf done left)
  | value done left key => simp [Frame.step, Frame.holding, find?, lookup_putEntry]

theorem edit_withKey (key : String) (t : Tree) (done : List (String × Tree)) :
    edit (fun _ => t) [.field key] (Tree.withKey key (.object done)) = .object (putEntry key t done) := by
  rw [Tree.withKey]
  cases h : done.lookup key with
  | none => simp [edit, lookup_putEntry, putEntry_putEntry]
  | some u => simp [edit, h]

/-- What is put where the next value goes is a change at that place alone. -/
theorem edit_embed (g : Tree → Tree) (frames : List Frame) (t : Tree) :
    edit g (next frames) (embed t frames) = embed (g t) frames := by
  induction frames generalizing g t with
  | nil => rfl
  | cons f outer ih =>
    rw [next_cons, Tree.edit_append, embed, List.foldl_cons, ← embed, ih, edit_holding]
    rfl

theorem find?_embed {frames : List Frame} (h : Ready frames) (t : Tree) :
    find? (next frames) (embed t frames) = some t := by
  induction frames generalizing t with
  | nil => rfl
  | cons f outer ih =>
    obtain ⟨hf, houter⟩ := List.forall_mem_cons.1 h
    rw [next_cons, Tree.find?_append, embed, List.foldl_cons, ← embed, ih houter, Option.bind_some, find?_holding hf]

/-- A builder stands where the open containers do, about to be given a value for the innermost. -/
structure Stands (frames : List Frame) (b : Builder) : Prop where
  ready : Ready frames.tail
  stack : b.stack = places frames
  root : ∀ f outer, frames = f :: outer → b.root = embed f.standing outer
  slot : ∀ done left key outer, frames = .value done left key :: outer → b.slot = next frames

/-- A builder has just been given the value. -/
structure Holds (t : Tree) (frames : List Frame) (b : Builder) : Prop where
  ready : Ready frames
  stack : b.stack = places frames
  root : b.root = embed t frames

theorem Stands.ready_of_open {frames : List Frame} {b : Builder} (h : Stands frames b) (hopen : Open frames) :
    Ready frames := by
  cases frames with
  | nil => simp [Ready]
  | cons f outer => exact List.forall_mem_cons.2 ⟨fun done left hf => hopen done left outer (by rw [hf]), h.ready⟩

theorem Stands.store {frames : List Frame} {b : Builder} (h : Stands frames b) (hopen : Open frames) (t : Tree) :
    b.store t = ({ b with root := embed t frames }, next frames) := by
  unfold Builder.store
  cases frames with
  | nil =>
    rw [h.stack]
    rfl
  | cons f outer =>
    have hready : Ready outer := h.ready
    have hroot := h.root f outer rfl
    have hstanding : b.root.find? (next outer) = some f.standing := by rw [hroot, find?_embed hready]
    rw [h.stack, places]
    simp only [hstanding]
    cases f with
    | items done left =>
      simp only [Frame.standing, hroot, edit_embed, List.length_reverse, next_cons, Frame.step]
      rfl
    | keys done left => exact absurd rfl (hopen done left outer)
    | value done left key =>
      have hslot := h.slot done left key outer rfl
      have hedit : b.root.edit (fun _ => t) b.slot = embed t (.value done left key :: outer) := by
        rw [hroot, hslot, next_cons, Tree.edit_append, edit_embed]
        exact congrArg (embed · outer) (edit_withKey key t done)
      rw [← hedit, ← hslot]
      rfl

/-- A value that is inserted lands where it belongs. -/
theorem Stands.insert {frames : List Frame} {b : Builder} (h : Stands frames b) (hopen : Open frames) (t : Tree) :
    Holds t frames (b.insert t) := by
  rw [Builder.insert, h.store hopen]
  exact ⟨h.ready_of_open hopen, h.stack, rfl⟩

/-- A container that is opened is the innermost one. -/
theorem Stands.start {frames : List Frame} {b : Builder} (h : Stands frames b) (hopen : Open frames) {f : Frame}
    (hf : ∀ done left key, f ≠ .value done left key) : Stands (f :: frames) (b.start f.standing) := by
  rw [Builder.start, h.store hopen]
  refine ⟨h.ready_of_open hopen, congrArg (next frames :: ·) h.stack, ?_, ?_⟩
  · rintro _ _ ⟨⟩
    rfl
  · rintro done left key _ ⟨⟩
    exact absurd rfl (hf done left key)

theorem Stands.start_leave {frames : List Frame} {b : Builder} (h : Stands frames b) (hopen : Open frames) (t : Tree) :
    Holds t frames (b.start t).leave := by
  rw [Builder.start, h.store hopen]
  exact ⟨h.ready_of_open hopen, h.stack, rfl⟩

theorem Stands.key {done : List (String × Tree)} {left : Option Nat} {outer : List Frame} {b : Builder}
    (h : Stands (.keys done left :: outer) b) (name : String) : Stands (.value done left name :: outer) (b.key name) := by
  obtain ⟨root, stack, slot⟩ := b
  obtain rfl : stack = next outer :: places outer := h.stack
  obtain rfl : root = embed (.object done) outer := h.root _ _ rfl
  refine ⟨h.ready, rfl, ?_, ?_⟩
  · rintro _ _ ⟨⟩
    exact edit_embed (Tree.withKey name) outer (.object done)
  · rintro _ _ _ _ ⟨⟩
    rw [next_cons]
    rfl

theorem Holds.leave {t : Tree} {f : Frame} {outer : List Frame} {b : Builder} (h : Holds t (f :: outer) b) :
    Holds (f.holding t) outer b.leave :=
  ⟨(List.forall_mem_cons.1 h.ready).2, congrArg List.tail h.stack, h.root⟩

theorem Stands.leave {f : Frame} {outer : List Frame} {b : Builder} (h : Stands (f :: outer) b) :
    Holds f.standing outer b.leave :=
  ⟨h.ready, congrArg List.tail h.stack, h.root f outer rfl⟩

/-- The two readers are at the same point, or at an end with the same outcome. -/
inductive Agree : Except Rejection Progress → Except Rejection Building → Prop
  | error (e : Rejection) : Agree (.error e) (.error e)
  | complete (t : Tree) : Agree (.ok (.complete t)) (.ok (.complete t))
  | within {frames : List Frame} {b : Builder} (h : Stands frames b) :
      Agree (.ok (.within frames)) (.ok (.within (frames.map Frame.level) b))

/-- A container that goes on with another entry. -/
theorem Holds.more {t : Tree} {f g : Frame} {outer : List Frame} {b : Builder} (h : Holds t (f :: outer) b)
    (hg : g.standing = f.holding t) (hvalue : ∀ done left key, g ≠ .value done left key) : Stands (g :: outer) b := by
  refine ⟨(List.forall_mem_cons.1 h.ready).2, h.stack, ?_, ?_⟩
  · rintro _ _ ⟨⟩
    rw [hg]
    exact h.root
  · rintro done left key _ ⟨⟩
    exact absurd rfl (hvalue done left key)

theorem Holds.agree {t : Tree} {frames : List Frame} {b : Builder} (h : Holds t frames b) :
    Agree (place t frames) (Building.settle (frames.map Frame.level) b) := by
  induction frames generalizing t b with
  | nil =>
    have hroot : b.root = t := h.root
    rw [List.map_nil, Building.settle, hroot]
    exact .complete t
  | cons f outer ih =>
    cases f with
    | items done left =>
      have hmore (left' : Option Nat) : Stands (.items (t :: done) left' :: outer) b :=
        h.more (by simp [Frame.standing, Frame.holding]) (by simp)
      have hleave := h.leave
      rw [Frame.holding, ← List.reverse_cons] at hleave
      rw [List.map_cons, Frame.level]
      rcases left with _ | _ | _ | n
      · exact .within (hmore none)
      · exact ih hleave
      · exact ih hleave
      · exact .within (hmore (some (n + 1)))
    | keys done left => exact absurd rfl ((List.forall_mem_cons.1 h.ready).1 done left)
    | value done left key =>
      have hmore (left' : Option Nat) : Stands (.keys (putEntry key t done) left' :: outer) b :=
        h.more rfl (by simp)
      have hleave : Holds (.object (putEntry key t done)) outer b.leave := h.leave
      rw [List.map_cons, Frame.level]
      rcases left with _ | _ | _ | n
      · exact .within (hmore none)
      · exact ih hleave
      · exact ih hleave
      · exact .within (hmore (some (n + 1)))

theorem Stands.enter {frames : List Frame} {b : Builder} (h : Stands frames b) (hopen : Open frames) (lim : Limits)
    (count : Option Nat) : b.enter lim count = guard lim frames count := by
  have hlength : b.stack.length = frames.length := by rw [h.stack, length_places]
  unfold Builder.enter guard
  rw [hlength]
  rcases frames with _ | ⟨_ | ⟨done, left⟩ | _, outer⟩
  · rfl
  · rfl
  · exact absurd rfl (hopen done left outer)
  · rfl

theorem start_of_open {frames : List Frame} (hopen : Open frames) (lim : Limits) (b : Builder) (empty : Tree)
    (count : Option Nat) (level : Level) : Building.start lim (frames.map Frame.level) b empty count level = do
      b.enter lim count
      if count = some 0 then Building.settle (frames.map Frame.level) (b.start empty).leave
      else return .within (level :: frames.map Frame.level) (b.start empty) := by
  rcases frames with _ | ⟨_ | ⟨done, left⟩ | _, outer⟩
  · rfl
  · rfl
  · exact absurd rfl (hopen done left outer)
  · rfl

/-- A container opens at the same point with both readers, or with neither. -/
theorem Stands.agree_start {frames : List Frame} {b : Builder} (h : Stands frames b) (lim : Limits) {f : Frame}
    (hf : ∀ done left key, f ≠ .value done left key) (count : Option Nat) :
    Agree (do
        guard lim frames count
        if count = some 0 then place f.standing frames else return .within (f :: frames))
      (Building.start lim (frames.map Frame.level) b f.standing count f.level) := by
  by_cases hopen : Open frames
  · rw [start_of_open hopen, h.enter hopen]
    cases guard lim frames count with
    | error e => exact .error e
    | ok _ =>
      simp only [ok_bind]
      split
      · exact (h.start_leave hopen f.standing).agree
      · exact .within (h.start hopen hf)
  · simp only [Open, not_forall, not_not] at hopen
    obtain ⟨done, left, outer, rfl⟩ := hopen
    exact .error .malformed

/-- One token leads to the same point, or to the same end. -/
theorem Stands.agree {frames : List Frame} {b : Builder} (h : Stands frames b) (lim : Limits) (token : Token) :
    Agree (step lim frames token) (Building.step lim (frames.map Frame.level) b token) := by
  cases token with
  | scalar t =>
    rcases frames with _ | ⟨_ | ⟨done, left⟩ | _, outer⟩
    · exact (h.insert (by simp [Open]) t).agree
    · exact (h.insert (by simp [Open]) t).agree
    · cases t with
      | text name => exact .within (h.key name)
      | _ => exact .error .malformed
    · exact (h.insert (by simp [Open]) t).agree
  | array count => exact h.agree_start lim (f := .items [] count) (by simp) count
  | map count => exact h.agree_start lim (f := .keys [] count) (by simp) count
  | stop =>
    rcases frames with _ | ⟨⟨done, _ | left⟩ | ⟨done, _ | left⟩ | _, outer⟩
    · exact .error .malformed
    · exact h.leave.agree
    · exact .error .malformed
    · exact h.leave.agree
    · exact .error .malformed
    · exact .error .malformed
  | tag => exact .error .malformed

theorem Stands.resume {frames : List Frame} {b : Builder} (h : Stands frames b) (lim : Limits) (fuel : Nat)
    (bs : List UInt8) : Building.resume lim fuel (frames.map Frame.level) b bs = Cbor.resume lim fuel frames bs := by
  induction fuel generalizing frames b bs with
  | zero => rfl
  | succ fuel ih =>
    rw [Building.resume, Cbor.resume]
    cases Token.read? bs with
    | none => rfl
    | some p =>
      obtain ⟨token, rest⟩ := p
      have hagree := h.agree lim token
      simp only
      generalize Cbor.step lim frames token = x at hagree
      generalize Building.step lim (frames.map Frame.level) b token = y at hagree
      cases hagree with
      | error e => rfl
      | complete t => rfl
      | within hnext => exact ih hnext rest

/-- Whatever the bytes are, what is built of them in place is what is collected of them. -/
theorem build_eq_read (depth : Nat) (body : List UInt8) : build depth body = read depth body := by
  have h : Stands [] {} := ⟨by simp [Ready], rfl, by simp, by simp⟩
  exact h.resume _ _ body

end Cbor

end TurnCodec
