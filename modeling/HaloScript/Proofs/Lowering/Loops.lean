/-
# Loop unrolling settles its calls

A loop becomes the copies of its body, one for each value that the counter takes
(`Loops.copies_eq`).  They meet what the loop meets, for nothing but numbers is put in
(`Loops.hooks_keep`).  After loop unrolling no loop is left, or an error has been reported
(`Loops.hooks_settle`).
-/
import HaloScript.Lowering.Loops
import HaloScript.Proofs.Lowering.Grounds

namespace HaloScript

open List

/-- Not the function of a loop, or not of an ordinary call. -/
def Callee.NotLoop (c : Callee) (clause : Bool) : Prop :=
  ∀ span, c = .word "loop" span → clause = true

theorem Head.notLoop_iff (h : Head) : h.callee.NotLoop h.clause ↔ h.isCallOf "loop" = false := by
  unfold Callee.NotLoop isCallOf
  cases h.callee with
  | script => simp
  | word => cases h.clause <;> simp

theorem Callee.notLoop_begin : (Callee.word "begin" none).NotLoop false :=
  fun _ h => absurd (Callee.word.inj h).1 (by decide)

theorem Supply.mapM_all {α β : Type} (ok : β → Prop) {f : α → Supply β}
    (hf : ∀ a n, ok (f a n).1) (xs : List α) (n : NodeId) : ∀ b ∈ (xs.mapM f n).1, ok b := by
  induction xs generalizing n with
  | nil => exact fun b hb => absurd hb not_mem_nil
  | cons x rest ih =>
    rw [mapM_cons]
    exact forall_mem_cons.mpr ⟨hf x n, ih (f x n).2⟩

namespace Loops

variable {leafOk : Leaf → Prop} {callOk : CallCondition} {view : View} {args vs : List Value}
  {i stop : Int64}

/-! ## 1. One loop -/

theorem add?_meets (counter : Value) {number : Value}
    (hn : number.Meets leafOk callOk) :
    Substitution.Meets leafOk callOk ((Substitution.add? {} counter number).getD {}) := by
  intro l v hv
  unfold Substitution.add? at hv
  split at hv
  · simp [Substitution.find?] at hv
  · simp [Substitution.find?] at hv
  · next l' _ =>
    simp only [Option.getD_some, Substitution.find?, lookup_cons, lookup_nil] at hv
    split at hv
    · exact Option.some.inj hv ▸ hn
    · exact absurd hv (by simp)

theorem copiesFrom_step (h : i < stop) (counter : Value) (body : List Value)
    (done : List (List Value)) (n : NodeId) :
    copiesFrom counter body stop i done n = copiesFrom counter body stop (i + 1)
      ((copyFor counter body i n).1 :: done) (copyFor counter body i n).2 := by
  rw [copiesFrom, dif_pos h]
  rfl

theorem copiesFrom_stop (h : ¬ i < stop) (counter : Value) (body : List Value)
    (done : List (List Value)) (n : NodeId) :
    copiesFrom counter body stop i done n = (done.reverse.flatten, n) := by
  rw [copiesFrom, dif_neg h]
  rfl

def steps (start stop : Int64) : Nat := (stop.toInt - start.toInt).toNat

def counts (start stop : Int64) : List Int64 :=
  (List.range (steps start stop)).map fun k => start + Int64.ofNat k

theorem counts_step (h : i < stop) : counts i stop = i :: counts (i + 1) stop := by
  have hlt := Int64.lt_iff_toInt_lt.mp h
  have hsteps : steps i stop = steps (i + 1) stop + 1 := by
    rw [steps, steps, toInt_succ h]
    omega
  rw [counts, counts, hsteps, range_succ_eq_map, map_cons, map_map]
  congr 1
  · simp
  · refine map_congr_left fun k _ => ?_
    show i + Int64.ofNat (k + 1) = i + 1 + Int64.ofNat k
    rw [Int64.ofNat_add, Int64.add_comm (Int64.ofNat k), ← Int64.add_assoc]
    rfl

theorem counts_stop (h : ¬ i < stop) : counts i stop = [] := by
  have hle : ¬ i.toInt < stop.toInt := fun hlt => h (Int64.lt_iff_toInt_lt.mpr hlt)
  rw [counts, steps, Int.toNat_of_nonpos (by omega)]
  rfl

/-- **The counter takes its values one after the other.** -/
theorem copiesFrom_eq (counter : Value) (body : List Value) (stop i : Int64)
    (done : List (List Value)) (n : NodeId) :
    copiesFrom counter body stop i done n =
      (done.reverse.flatten ++ ((counts i stop).mapM (copyFor counter body) n).1.flatten,
        ((counts i stop).mapM (copyFor counter body) n).2) := by
  by_cases h : i < stop
  · rw [copiesFrom_step h, copiesFrom_eq, counts_step h, mapM_cons, reverse_cons,
      flatten_append, append_assoc]
    simp only [flatten_cons, flatten_nil, append_nil]
    rfl
  · rw [copiesFrom_stop h, counts_stop h]
    exact congrArg (·, n) (append_nil _).symm
termination_by (stop.toInt - i.toInt).toNat
decreasing_by
  have hlt := Int64.lt_iff_toInt_lt.mp h
  rw [toInt_succ h]
  omega

theorem copies_eq (counter : Value) (body : List Value) (start stop : Int64) (n : NodeId) :
    copies counter body start stop n =
      (((counts start stop).mapM (copyFor counter body) n).1.flatten,
        ((counts start stop).mapM (copyFor counter body) n).2) :=
  copiesFrom_eq counter body stop start [] n

section

variable (hint : ∀ n, leafOk (.atom (Text.ofInt n)))

include hint

theorem copies_meets (counter : Value) {body : List Value}
    (hbody : ∀ v ∈ body, v.Meets leafOk callOk) (start stop : Int64) (n : NodeId) :
    ∀ v ∈ (copies counter body start stop n).1, v.Meets leafOk callOk := by
  intro v hv
  rw [copies_eq] at hv
  obtain ⟨vs, hvs, hv⟩ := mem_flatten.mp hv
  refine Supply.mapM_all (fun vs => ∀ v ∈ vs, v.Meets leafOk callOk) ?_ _ n vs hvs v hv
  intro k n
  refine Value.instantiateAll_meets (add?_meets counter ?_) body _ hbody
  exact (Value.meets_leaf _ _).mpr (hint _)

/-! ## 2. What unrolling puts in -/

theorem tryUnroll_keep (h : Head) (hargs : ∀ v ∈ args, v.Meets leafOk callOk) {e e' : Env}
    (hx : tryUnroll view h args e = (some vs, e')) : ∀ v ∈ vs, v.Meets leafOk callOk := by
  unfold tryUnroll at hx
  split at hx
  · next counter low high body =>
    simp only [forall_mem_cons] at hargs
    split at hx
    · cases hx
    · split at hx
      · cases hx
      · split at hx
        · cases hx
          exact fun _ hv => absurd hv not_mem_nil
        · split at hx
          · cases hx
          · cases hx
            exact copies_meets hint counter hargs.2.2.2 _ _ _
  · cases hx

theorem unroll?_keep (h : Head) (hargs : ∀ v ∈ args, v.Meets leafOk callOk) {e e' : Env}
    (hx : unroll? view h args e = (some vs, e')) : ∀ v ∈ vs, v.Meets leafOk callOk := by
  unfold unroll? at hx
  split at hx
  · cases hx
  · split at hx
    · next hx' =>
      cases hx
      exact tryUnroll_keep hint h hargs hx'
    · cases hx

/-- Unrolling puts in nothing but numbers and a `begin`. -/
theorem hooks_keep (hbegin : callOk (.word "begin" none) false) : hooks.Keep leafOk callOk where
  onElement view place v e hv := by
    show ∀ w ∈ (unrollElement view place v e).1.values, w.Meets leafOk callOk
    unfold unrollElement
    split
    · exact forall_mem_singleton.mpr hv
    · next t h args =>
      split
      · split
        · exact forall_mem_singleton.mpr hv
        · next hx =>
          split
          · refine forall_mem_singleton.mpr ((Value.meets_call _ _ _).mpr ⟨hbegin, ?_⟩)
            exact fun _ hw => absurd hw not_mem_nil
          · exact unroll?_keep hint h ((Value.meets_call _ _ _).mp hv).2 hx
      · exact forall_mem_singleton.mpr hv
  onValue view v e hv := by
    show (unrollValue view v e).1.Meets leafOk callOk
    unfold unrollValue
    split
    · exact hv
    · next t h args =>
      split
      · exact hv
      · next hx =>
        exact (Value.meets_call _ _ _).mpr
          ⟨hbegin, unroll?_keep hint h ((Value.meets_call _ _ _).mp hv).2 hx⟩

end

/-! ## 3. Grounds -/

/-- What can be said about a loop with `n` arguments. -/
inductive Complaint (limit : Int64) (h : Head) (n : Nat) : Message → Prop
  | shape (hn : n < 3) : Complaint limit h n
      ⟨.error, "invalid loop expression, expecting (loop <counter> <start value> <end value> " ++
        "[expressions])", h.span, true⟩
  | bound (hn : 3 ≤ n) {name text : Text} (span : Option Span)
      (hname : name = "start" ∨ name = "end")
      (htext : text = "unable to evaluate " ++ name ++ " value for loop!" ∨
        text = "unable to evaluate loop " ++ name ++ " value as a long!") :
      Complaint limit h n ⟨.error, text, span, true⟩
  | limit (hn : 3 ≤ n) : Complaint limit h n (h.exceeds limit)

/-- Loops fail if they are malformed, if a bound is no long or if they exceed the limit. -/
def grounds : Grounds where
  tries := isLoop
  complaint := Complaint
  quiet _ n := 3 ≤ n

theorem grounds_sparesBlocks : grounds.SparesBlocks := by
  intro h hbegin
  show h.isCallOf "loop" = false
  unfold Head.isCallOf at hbegin ⊢
  split at hbegin
  · next name link hcallee =>
    simp only [Bool.and_eq_true, beq_iff_eq] at hbegin
    rw [hbegin.2, show (("begin" : Text) == "loop") = false from rfl, Bool.and_false]
  · cases hbegin

theorem grounds_errs : grounds.Errs := by
  intro limit h n msg hcomplaint
  cases hcomplaint with
  | shape | bound | limit => rfl

/-- A bound is found and nothing is said, or there is a complaint about it. -/
theorem bound?_adds (view : View) (name : Text) (v : Value) (e : Env) :
    (∃ n, (bound? view name v e).1 = some n ∧ e.Adds [] (bound? view name v e).2) ∨
    ((bound? view name v e).1 = none ∧ ∃ text : Text,
      (text = "unable to evaluate " ++ name ++ " value for loop!" ∨
        text = "unable to evaluate loop " ++ name ++ " value as a long!") ∧
      e.Adds [⟨.error, text, v.span, true⟩] (bound? view name v e).2) := by
  have heval : e.Adds [] (e.eval (view.scene.evalValue v)).2 :=
    ⟨(append_nil _).symm, rfl, rfl, .inl⟩
  unfold bound?
  dsimp only
  split
  · exact .inr ⟨rfl, _, .inl rfl, heval.trans (.tellNode _ _ _ _)⟩
  · split
    · exact .inr ⟨rfl, _, .inr rfl, heval.trans (.tellNode _ _ _ _)⟩
    · exact .inl ⟨_, rfl, heval⟩

/-- What unrolling adds to the state, and that it fails on its grounds. -/
theorem tryUnroll_adds (view : View) (h : Head) (args : List Value) (e : Env) :
    (∃ vs, (tryUnroll view h args e).1 = some vs ∧ e.Adds [] (tryUnroll view h args e).2) ∨
    ((tryUnroll view h args e).1 = none ∧ ∃ ms, grounds.Fails e h args.length ms ∧
      e.Adds ms (tryUnroll view h args e).2) := by
  unfold tryUnroll
  split
  · next counter low high body =>
    have hn : 3 ≤ (counter :: low :: high :: body).length := by simp
    -- a bound that is missing is all that is complained about
    have hbound : ∀ (name text : Text) (v : Value) (e₁ e₂ : Env), e.Adds [] e₁ →
        (name = "start" ∨ name = "end") →
        (text = "unable to evaluate " ++ name ++ " value for loop!" ∨
          text = "unable to evaluate loop " ++ name ++ " value as a long!") →
        e₁.Adds [⟨.error, text, v.span, true⟩] e₂ →
        ∃ ms, grounds.Fails e h (counter :: low :: high :: body).length ms ∧ e.Adds ms e₂ :=
      fun name text v e₁ e₂ hadds hname htext hadds' =>
        ⟨_, .inl ⟨_, rfl, .bound hn v.span hname htext⟩, hadds.trans hadds'⟩
    rcases h₁ : bound? view "start" low e with ⟨_ | start, e₁⟩
    · have hlow := bound?_adds view "start" low e
      rw [h₁] at hlow
      obtain ⟨_, hsome, -⟩ | ⟨-, text, htext, hadds⟩ := hlow
      · cases hsome
      · exact .inr ⟨rfl, hbound _ text low e e₁ (.refl e) (.inl rfl) htext hadds⟩
    · have hlow := bound?_adds view "start" low e
      rw [h₁] at hlow
      obtain ⟨_, -, hadds₁⟩ | ⟨hnone, -⟩ := hlow
      case inr => cases hnone
      dsimp only
      rcases h₂ : bound? view "end" high e₁ with ⟨_ | stop, e₂⟩
      · have hhigh := bound?_adds view "end" high e₁
        rw [h₂] at hhigh
        obtain ⟨_, hsome, -⟩ | ⟨-, text, htext, hadds⟩ := hhigh
        · cases hsome
        · exact .inr ⟨rfl, hbound _ text high e₁ e₂ hadds₁ (.inr rfl) htext hadds⟩
      · have hhigh := bound?_adds view "end" high e₁
        rw [h₂] at hhigh
        obtain ⟨_, -, hadds₂⟩ | ⟨hnone, -⟩ := hhigh
        case inr => cases hnone
        have hadds := hadds₁.trans hadds₂
        dsimp only
        split
        · exact .inl ⟨_, rfl, hadds⟩
        · have hspend := e₂.spend_adds (price e₂.budget.limit start stop body.length).toInt64 h
          rcases hpaid : e₂.spend (price e₂.budget.limit start stop body.length).toInt64 h.span
            with ⟨paid, e₃⟩
          rw [hpaid] at hspend
          obtain ⟨rfl, hadds₃⟩ | ⟨rfl, hx, hadds₃⟩ | ⟨rfl, hadds₃⟩ := hspend
          · have hall := hadds.trans hadds₃
            exact .inl ⟨_, rfl, hall.messages, hall.marks, hall.limit, hall.exhausted⟩
          · exact .inr ⟨rfl, [], .inr ⟨rfl, hn, hadds.exhausted_of_nil hx⟩, hadds.trans hadds₃⟩
          · refine .inr ⟨rfl, _, .inl ⟨_, rfl, .limit hn⟩, ?_⟩
            rw [← hadds.limit]
            exact hadds.trans hadds₃
  · next hshape =>
    have hn : args.length < 3 := by
      rcases args with _ | ⟨a, _ | ⟨b, _ | ⟨c, rest⟩⟩⟩
      · simp
      · simp
      · simp
      · exact absurd rfl (hshape a b c rest)
    exact .inr ⟨rfl, _, .inl ⟨_, rfl, .shape hn⟩, .tellNode _ _ _ _⟩

/-- **Unrolling follows its grounds.** -/
theorem unroll?_try (view : View) (h : Head) (args : List Value) (e : Env) :
    grounds.Try h args.length e (unroll? view h args e).1 (unroll? view h args e).2 := by
  unfold unroll?
  cases hloop : isLoop h with
  | false => exact .other hloop
  | true =>
    cases hmark : e.isMarked h.id with
    | true => exact .aside hloop hmark
    | false =>
      have htry := tryUnroll_adds view h args e
      simp only [Bool.not_true, Bool.or_self, Bool.false_eq_true, if_false]
      rcases hx : tryUnroll view h args e with ⟨_ | vs, e'⟩
      · rw [hx] at htry
        obtain ⟨_, hsome, -⟩ | ⟨-, ms, hfails, hadds⟩ := htry
        · cases hsome
        · exact .refused hloop hmark hadds hfails
      · rw [hx] at htry
        obtain ⟨_, -, hadds⟩ | ⟨hnone, -⟩ := htry
        · exact .replaced hmark hadds
        · cases hnone

/-- **Loop unrolling follows its grounds**, whatever it sees. -/
theorem hooks_follows : hooks.Follows grounds fun _ => True where
  onGlobal _ _ _ := rfl
  onScript _ _ := rfl
  onCall _ _ := rfl
  onValue view v e _ := by
    show grounds.Outcome e (unrollValue view v e).1 (unrollValue view v e).2
    unfold unrollValue
    cases v with
    | leaf =>
      refine .settled (.refl e) fun h hh => ?_
      cases hh
    | call t h args =>
      have ht := unroll?_try view h args e
      dsimp only
      rcases hx : unroll? view h args e with ⟨_ | vs, e'⟩
      · rw [hx] at ht
        exact ht.outcome
      · rw [hx] at ht
        refine .settled ht.adds fun h' hh htries => ?_
        obtain rfl := Option.some.inj hh
        rw [grounds_sparesBlocks h.becomeBegin rfl] at htries
        cases htries
  aside view t h args e _ hmark := by
    show unrollValue view (.call t h args) e = _
    obtain ⟨hnone, hsame⟩ := (unroll?_try view h args e).eq_of_isMarked hmark
    unfold unrollValue
    dsimp only
    rcases hx : unroll? view h args e with ⟨_ | vs, e'⟩
    · rw [hx] at hsame
      exact congrArg (Prod.mk _) hsame
    · rw [hx] at hnone
      cases hnone
  onElement view place v e _ := by
    show e.Adds [] (unrollElement view place v e).2 ∨ _
    unfold hooks unrollElement
    cases v with
    | leaf => exact .inl (.refl e)
    | call t h args =>
      dsimp only
      split
      · have ht := unroll?_try view h args e
        rcases hx : unroll? view h args e with ⟨_ | vs, e'⟩
        · rw [hx] at ht
          cases ht with
          | other | aside => exact .inl (.refl _)
          | refused htries hmark hadds hfails =>
            exact .inr ⟨t, h, args, _, _, rfl, htries, hmark, hadds, hfails⟩
        · rw [hx] at ht
          refine .inl ?_
          dsimp only
          split
          · exact ht.adds
          · exact ht.adds
      · exact .inl (.refl e)

theorem notLoop_of_triesValue {v : Value} (htries : grounds.triesValue v = false) :
    v.root.Meets (fun _ => True) Callee.NotLoop := by
  cases v with
  | leaf => trivial
  | call t h => exact h.notLoop_iff.mpr htries

/-- **Loop unrolling settles its calls.** -/
theorem hooks_settle (p : Program) : hooks.Settle p Env.Clear Env.Failed
    fun r => r.Meets (fun _ => True) Callee.NotLoop where
  onGlobal _ _ _ := rfl
  onScript _ _ := rfl
  onCall _ _ := rfl
  onElement _ place v _ he hok := hooks_follows.element_clear grounds_errs trivial place v he hok
  onValue view v e _ he hok := ((hooks_follows.onValue view v e trivial).clear grounds_errs he
    hok).imp_right notLoop_of_triesValue
  onElement_failed _ place v _ he := hooks_follows.element_failed trivial place v he
  onValue_failed view v e he := (hooks_follows.onValue view v e trivial).failed he

end Loops

end HaloScript
