import TurnCodec.Cbor.Script
import TurnCodec.Proofs.Cbor.Builder
/-! A body is read as its script is heard: the events of a token leave the builder as the token
does, at every point of a body and whatever is refused. -/

namespace TurnCodec.Cbor

/-- What a builder that heard all events so far comes to. -/
def Reading.outcome (b : Builder) : Reading → Except Rejection Building
  | complete => .ok (.complete b.root)
  | within levels => .ok (.within levels b)
  | broken => .error .malformed

/-- The builder hears some events; then the reader is at a point. -/
def Builder.follow (lim : Limits) (b : Builder) (told : List Event × Reading) : Except Rejection Building :=
  told.1.foldlM (hear lim) b >>= fun b => told.2.outcome b

theorem Builder.follow_cons (lim : Limits) (b : Builder) (e : Event) (told : List Event × Reading) :
    b.follow lim (e :: told.1, told.2) = b.hear lim e >>= fun b => b.follow lim told := by
  rw [follow, List.foldlM_cons, bind_assoc]
  rfl

theorem Reading.follow_settle (lim : Limits) (levels : List Level) (b : Builder) :
    b.follow lim (settle levels) = Building.settle levels b := by
  induction levels generalizing b with
  | nil => rfl
  | cons level outer ih =>
    have closes : b.follow lim (.closing :: (settle outer).1, (settle outer).2) = Building.settle outer b.leave := by
      rw [Builder.follow_cons, ← ih]
      rfl
    cases level with
    | items left =>
      rcases left with _ | _ | _ | n
      · rfl
      · exact closes
      · exact closes
      · rfl
    | keys left => rfl
    | value left =>
      rcases left with _ | _ | _ | n
      · rfl
      · exact closes
      · exact closes
      · rfl

theorem Reading.follow_closing (lim : Limits) (outer : List Level) (b : Builder) :
    b.follow lim (.closing :: (settle outer).1, (settle outer).2) = Building.settle outer b.leave := by
  rw [Builder.follow_cons, ← follow_settle lim]
  rfl

theorem Reading.follow_start (lim : Limits) (levels : List Level) (b : Builder) (empty : Tree) (count : Option Nat)
    (level : Level) :
    b.follow lim (start levels empty count level) = Building.start lim levels b empty count level := by
  have opens : b.follow lim
      (if count = some 0 then (.opening empty count :: .closing :: (settle levels).1, (settle levels).2)
        else ([.opening empty count], within (level :: levels))) = do
      b.enter lim count
      if count = some 0 then Building.settle levels (b.start empty).leave
      else return .within (level :: levels) (b.start empty) := by
    split
    · rw [Builder.follow_cons lim b _ (.closing :: (settle levels).1, (settle levels).2), Builder.hear, bind_assoc]
      simp only [pure_bind, follow_closing]
    · rw [Builder.follow_cons lim b _ ([], within (level :: levels)), Builder.hear, bind_assoc]
      rfl
  rcases levels with _ | ⟨_ | _ | _, outer⟩
  · exact opens
  · exact opens
  · rfl
  · exact opens

/-- The events of a token leave the builder where the token does. -/
theorem Reading.follow_step (lim : Limits) (levels : List Level) (b : Builder) (token : Token) :
    b.follow lim (step levels token) = Building.step lim levels b token := by
  cases token with
  | scalar t =>
    have inserts : b.follow lim (.value t :: (settle levels).1, (settle levels).2) =
        Building.settle levels (b.insert t) := by
      rw [Builder.follow_cons, ← follow_settle lim]
      rfl
    rcases levels with _ | ⟨_ | _ | _, outer⟩
    · exact inserts
    · exact inserts
    · cases t <;> rfl
    · exact inserts
  | array count => exact follow_start lim levels b (.array []) count (.items count)
  | map count => exact follow_start lim levels b (.object []) count (.keys count)
  | stop =>
    rcases levels with _ | ⟨⟨_ | _⟩ | ⟨_ | _⟩ | _, outer⟩
    · rfl
    · exact follow_closing lim outer b
    · rfl
    · exact follow_closing lim outer b
    · rfl
    · rfl
  | tag => rfl

theorem Reading.run_resume (lim : Limits) (fuel : Nat) (levels : List Level) (b : Builder) (bs : List UInt8) :
    (resume fuel levels bs).run id lim b = Building.resume lim fuel levels b bs := by
  induction fuel generalizing levels b bs with
  | zero => rfl
  | succ fuel ih =>
    rw [resume, Building.resume]
    rcases Token.read? bs with _ | ⟨token, rest⟩
    · rfl
    simp only [← follow_step, Builder.follow]
    rcases step levels token with ⟨events, reached⟩
    -- what the builder refuses of the events it refuses either way
    cases reached with
    | complete =>
      rw [Script.run]
      rcases events.foldlM (Builder.hear lim) b with why | b'
      · rfl
      · cases rest.isEmpty <;> rfl
    | broken =>
      rw [Script.run]
      rcases events.foldlM (Builder.hear lim) b with why | b' <;> rfl
    | within levels' =>
      simp only [Script.run, List.foldlM_append]
      rcases events.foldlM (Builder.hear lim) b with why | b'
      · rfl
      · exact ih levels' b' rest

/-- Reading a body is hearing its script. -/
theorem run_script (depth : Nat) (body : List UInt8) :
    (script body).run id ⟨depth, body.length⟩ {} = read depth body := by
  rw [← build_eq_read]
  exact Reading.run_resume ⟨depth, body.length⟩ body.length [] {} body

end TurnCodec.Cbor
