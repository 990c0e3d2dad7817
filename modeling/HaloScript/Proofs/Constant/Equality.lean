/-
# Which comparisons depend on the order

Equality compares by the kind of the first constant, and the second one is turned into this kind.
The two orders agree as long as no kind is lost on the way.  Where they do not agree is listed in
`Const.Lopsided`: a number can be compared with a truth value only from the right, a long that is
no short only from the left of a short, and a real against a whole number is cut off in one order
while the whole number is rounded in the other.

Evaluation makes no longs and no shorts, so in a program the order of the two arguments of an
equality matters only where one of them is a real and the other one a truth value
(`Program.equality_order_matters`).
-/
import HaloScript.Proofs.Constant.Coercions
import HaloScript.Proofs.Constant.Memo

namespace HaloScript

open Option

/-! ## 1. Pairs that are lopsided -/

namespace Single

theorem eq_finite (s t : Bool) (u v : Nat) :
    eq (finite s u) (finite t v) = decide (signed s u = signed t v) := by
  unfold eq compare?
  rcases lt_trichotomy (signed s u) (signed t v) with h | h | h
  · simp [compare_lt_iff_lt.mpr h, h.ne]
  · simp [h]
  · simp [compare_gt_iff_gt.mpr h, h.ne']

theorem eq_swap (x y : Single) : x.eq y = y.eq x := by
  cases x with
  | nan => cases y <;> rfl
  | infinite s =>
    cases y with
    | nan => rfl
    | infinite t => cases s <;> cases t <;> rfl
    | finite => cases s <;> rfl
  | finite =>
    cases y with
    | nan => rfl
    | infinite t => cases t <;> rfl
    | finite =>
      rw [eq_finite, eq_finite]
      exact decide_eq_decide.mpr Eq.comm

end Single

namespace Const

def IsNumber : Const → Prop
  | .long _ | .short _ | .real _ => True
  | .void | .atom _ | .bool _ => False

/-- A long or a short: its number, and the whole parts with which a real turns into this kind. -/
inductive Whole : Const → Int → (Int → Bool) → Prop
  | long (n : Int64) : Whole (.long n) n.toInt fun k => -2 ^ 63 < k ∧ k < 2 ^ 63
  | short (n : Int16) : Whole (.short n) n.toInt fun k => -32768 ≤ k ∧ k ≤ 32767

/-- Pairs of constants whose comparison depends on which one comes first. -/
inductive Lopsided : Const → Const → Prop
  /-- A truth value is compared with numbers, but a number with no truth value. -/
  | truth (p : Bool) {c : Const} (hc : c.IsNumber) : Lopsided (.bool p) c
  /-- A long is compared with all shorts, but a short only with longs in range. -/
  | wide {n : Int64} (hn : ¬(-32768 ≤ n.toInt ∧ n.toInt ≤ 32767)) (m : Int16) :
    Lopsided (.long n) (.short m)
  /-- A real is compared with all whole numbers, but these only with reals in range. -/
  | beyond {c : Const} {n : Int} {fits : Int → Bool} (hc : Whole c n fits) {x : Single}
    (hx : x.truncate?.filter fits = none) : Lopsided c (.real x)
  /-- The whole part of the real is the number, but the real is not. -/
  | cut {c : Const} {n : Int} {fits : Int → Bool} (hc : Whole c n fits) {x : Single}
    (hx : x.truncate? = some n) (hne : x.eq (.ofInt n) = false) : Lopsided c (.real x)
  /-- The number is rounded to the real, whose whole part is another number. -/
  | rounded {c : Const} {n : Int} {fits : Int → Bool} (hc : Whole c n fits) {x : Single}
    (hx : x.truncate? ≠ some n) (heq : x.eq (.ofInt n) = true) : Lopsided c (.real x)

variable {a b c : Const} {n : Int} {fits : Int → Bool}

/-! ## 2. Comparing from both sides -/

theorem equal?_void_comm (b : Const) : void.equal? b = b.equal? void := by
  cases b <;> rfl

theorem equal?_atom_comm (t : Text) (b : Const) : (atom t).equal? b = b.equal? (atom t) := by
  cases b with
  | atom =>
    rw [equal?, equal?, Bool.beq_comm]
  | void => rfl
  | long => rfl
  | short => rfl
  | real => rfl
  | bool => rfl

theorem IsNumber.ne_void (hc : c.IsNumber) : c ≠ void := by
  rintro rfl
  exact hc

theorem long_equal? (n : Int64) (hc : c.IsNumber) :
    (long n).equal? c = (c.toLong?.map Int64.toInt).map (n.toInt == ·) := by
  have hequal : (long n).equal? c = c.toLong?.map (n == ·) := if_neg hc.ne_void
  rw [hequal, map_map]
  refine map_congr fun k _ => ?_
  rw [Function.comp_apply, beq_eq_decide, beq_eq_decide, decide_eq_decide.mpr Int64.toInt_inj]

theorem short_equal? (n : Int16) (hc : c.IsNumber) :
    (short n).equal? c = (c.toShort?.map Int16.toInt).map (n.toInt == ·) := by
  have hequal : (short n).equal? c = c.toShort?.map (n == ·) := if_neg hc.ne_void
  rw [hequal, map_map]
  refine map_congr fun k _ => ?_
  rw [Function.comp_apply, beq_eq_decide, beq_eq_decide, decide_eq_decide.mpr Int16.toInt_inj]

theorem long_equal?_short (n : Int64) (m : Int16) :
    (long n).equal? (short m) = some (n.toInt == m.toInt) := by
  rw [long_equal? n (c := short m) trivial, toLong?, map_some, map_some,
    Int16.toInt_toInt64]

theorem short_equal?_long (m : Int16) (n : Int64) : (short m).equal? (long n) =
    if -32768 ≤ n.toInt ∧ n.toInt ≤ 32767 then some (m.toInt == n.toInt) else none := by
  rw [short_equal? m (c := long n) trivial, toShort?_map, toLong?, map_some,
    filter_some]
  by_cases h : -32768 ≤ n.toInt ∧ n.toInt ≤ 32767
  · rw [if_pos (decide_eq_true h), if_pos h, map_some]
  · rw [if_neg (by simpa using h), if_neg h, map_none]

theorem Whole.equal?_real (hc : Whole c n fits) (x : Single) :
    c.equal? (real x) = (x.truncate?.filter fits).map (n == ·) := by
  cases hc with
  | long n => rw [long_equal? n (c := real x) trivial, toLong?, Single.toLong?_map]
  | short n => rw [short_equal? n (c := real x) trivial, toShort?, Single.toShort?_map]

theorem Whole.real_equal? (hc : Whole c n fits) (x : Single) :
    (real x).equal? c = some (x.eq (.ofInt n)) := by
  cases hc with
  | long => rfl
  | short => rfl

/-- **A whole number and a real** compare the same in both orders, unless the real is out of range,
is cut off to the number or is what the number is rounded to. -/
theorem Whole.equal?_comm (hc : Whole c n fits) {x : Single} (h : ¬ Lopsided c (real x)) :
    c.equal? (real x) = (real x).equal? c := by
  rw [hc.equal?_real, hc.real_equal?]
  cases hx : x.truncate?.filter fits with
  | none => exact absurd (.beyond hc hx) h
  | some k =>
    obtain ⟨hk, -⟩ := filter_eq_some_iff.mp hx
    rw [map_some, some_inj]
    cases heq : x.eq (.ofInt n) with
    | true =>
      by_cases hn : n = k
      · exact beq_iff_eq.mpr hn
      · refine absurd (.rounded hc (fun hsome => hn ?_) heq) h
        exact (Option.some.inj (hk.symm.trans hsome)).symm
    | false =>
      by_cases hn : n = k
      · exact absurd (.cut hc (hn ▸ hk) heq) h
      · exact beq_eq_false_iff_ne.mpr hn

/-- The two orders differ on lopsided pairs. -/
theorem Lopsided.equal?_ne (h : Lopsided a b) : a.equal? b ≠ b.equal? a := by
  cases h with
  | truth p hb =>
    cases b with
    | void => exact hb.elim
    | atom => exact hb.elim
    | bool => exact hb.elim
    | long => exact some_ne_none _
    | short => exact some_ne_none _
    | real => exact some_ne_none _
  | @wide n hn =>
    rw [long_equal?_short, short_equal?_long, if_neg hn]
    exact some_ne_none _
  | beyond hc hx =>
    rw [hc.equal?_real, hc.real_equal?, hx]
    exact (some_ne_none _).symm
  | cut hc hx hne =>
    rw [hc.equal?_real, hc.real_equal?, hne, hx]
    intro hsame
    obtain ⟨k, hk, hbeq⟩ := map_eq_some_iff.mp hsame
    obtain ⟨hk, -⟩ := filter_eq_some_iff.mp hk
    exact (beq_eq_false_iff_ne.mp hbeq) (Option.some.inj hk)
  | rounded hc hx heq =>
    rw [hc.equal?_real, hc.real_equal?, heq]
    intro hsame
    obtain ⟨k, hk, hbeq⟩ := map_eq_some_iff.mp hsame
    obtain ⟨hk, -⟩ := filter_eq_some_iff.mp hk
    exact hx (hk.trans (congrArg some (beq_iff_eq.mp hbeq).symm))

/-- The two orders agree on all other pairs. -/
theorem equal?_comm_of_not_lopsided (h : ¬ Lopsided a b) (h' : ¬ Lopsided b a) :
    a.equal? b = b.equal? a := by
  cases a with
  | void => exact equal?_void_comm b
  | atom t => exact equal?_atom_comm t b
  | bool p =>
    cases b with
    | void => rfl
    | atom => rfl
    | bool => exact congrArg some Bool.beq_comm
    | long => exact absurd (.truth p trivial) h
    | short => exact absurd (.truth p trivial) h
    | real => exact absurd (.truth p trivial) h
  | long n =>
    cases b with
    | void => rfl
    | atom => rfl
    | bool q => exact absurd (.truth q trivial) h'
    | long => exact congrArg some Bool.beq_comm
    | short m =>
      have hn : -32768 ≤ n.toInt ∧ n.toInt ≤ 32767 := not_not.mp fun hn => h (.wide hn m)
      rw [long_equal?_short, short_equal?_long, if_pos hn, Bool.beq_comm]
    | real => exact (Whole.long n).equal?_comm h
  | short n =>
    cases b with
    | void => rfl
    | atom => rfl
    | bool q => exact absurd (.truth q trivial) h'
    | long m =>
      have hm : -32768 ≤ m.toInt ∧ m.toInt ≤ 32767 := not_not.mp fun hm => h' (.wide hm n)
      rw [long_equal?_short, short_equal?_long, if_pos hm, Bool.beq_comm]
    | short => exact congrArg some Bool.beq_comm
    | real => exact (Whole.short n).equal?_comm h
  | real x =>
    cases b with
    | void => rfl
    | atom => rfl
    | bool q => exact absurd (.truth q trivial) h'
    | long m => exact ((Whole.long m).equal?_comm h').symm
    | short m => exact ((Whole.short m).equal?_comm h').symm
    | real y => exact congrArg some (x.eq_swap y)

/-- **The order matters for lopsided pairs only**, and for all of them. -/
theorem equal?_ne_iff : a.equal? b ≠ b.equal? a ↔ Lopsided a b ∨ Lopsided b a := by
  constructor
  · intro hne
    by_contra hnot
    rw [not_or] at hnot
    exact hne (equal?_comm_of_not_lopsided hnot.1 hnot.2)
  · rintro (h | h)
    · exact h.equal?_ne
    · exact h.equal?_ne.symm

end Const

/-! ## 3. Expressions without numbers and places -/

def Callee.bare : Callee → Callee
  | .word t _ => .word t none
  | .script s => .script s

def Head.bare (h : Head) : Head := ⟨0, none, h.callee.bare, h.clause⟩

namespace Value

mutual

/-- The value without the numbers and places of its nodes: what is written. -/
def bare : Value → Value
  | .leaf _ l => .leaf ⟨0, none⟩ l
  | .call _ h args => .call ⟨0, none⟩ h.bare (bareAll args)

def bareAll : List Value → List Value
  | [] => []
  | v :: rest => bare v :: bareAll rest

end

theorem bareAll_eq_map (vs : List Value) : bareAll vs = vs.map bare := by
  induction vs with
  | nil => rfl
  | cons v rest ih => rw [bareAll, ih, List.map_cons]

end Value

def Node.bare : Node → Node
  | .global id => .global id
  | .value v => .value v.bare
  | .call h args => .call h.bare (args.map Value.bare)

namespace Scene

variable {scene : Scene}

/-- **Evaluation looks at neither numbers nor places.** -/
theorem plain_bare (depth : Nat) (K : Node) : scene.plain depth K.bare = scene.plain depth K := by
  induction depth generalizing K with
  | zero => rfl
  | succ depth ih =>
    rw [plain, plain]
    cases K with
    | global => rfl
    | value v =>
      cases v with
      | leaf t l => cases l <;> rfl
      | call t h args =>
        have hcall := ih (.call h args)
        rw [Node.bare, ← Value.bareAll_eq_map] at hcall
        exact hcall
    | call h args =>
      have hargs : (args.map Value.bare).map (fun v => scene.plain depth (.value v)) =
          args.map fun v => scene.plain depth (.value v) := by
        rw [List.map_map]
        exact List.map_congr_left fun v _ => ih (.value v)
      obtain ⟨id, span, callee, clause⟩ := h
      cases callee with
      | script => rfl
      | word =>
        simp only [Node.bare, Head.bare, Callee.bare, unfold, hargs]

theorem derives_bare {K : Node} {c : Const} : scene.Derives K.bare c ↔ scene.Derives K c := by
  simp only [Derives, plain_bare]

end Scene

/-! ## 4. Equalities in a program -/

theorem Head.isCallOf_bare (h : Head) (name : Text) : h.bare.isCallOf name = h.isCallOf name := by
  obtain ⟨id, span, callee, clause⟩ := h
  cases callee <;> rfl

/-- Of the constants that evaluation makes, only truth values and reals are lopsided. -/
theorem Const.Computed.lopsided_iff {a b : Const} (ha : a.Computed) (hb : b.Computed) :
    a.Lopsided b ↔ ∃ q x, a = .bool q ∧ b = .real x := by
  constructor
  · intro h
    cases h with
    | truth q hnumber =>
      cases b with
      | void => exact hb.elim
      | atom => exact hnumber.elim
      | bool => exact hnumber.elim
      | long => exact hb.elim
      | short => exact hb.elim
      | real x => exact ⟨q, x, rfl, rfl⟩
    | wide => exact ha.elim
    | beyond hc => cases hc <;> exact ha.elim
    | cut hc => cases hc <;> exact ha.elim
    | rounded hc => cases hc <;> exact ha.elim
  · rintro ⟨q, x, rfl, rfl⟩
    exact .truth q trivial

namespace Program

variable {p : Program} {h : Head} {x y : Value}

theorem owns_of_mem {K : Node} (hK : K ∈ p.nodes) : p.Owns K := fun _ => hK

theorem Keyed.owns_arg (hp : p.Keyed) {args : List Value} (hK : .call h args ∈ p.nodes) {v : Value}
    (hv : v ∈ args) : p.Owns (.value v) :=
  hp.closed.needs (owns_of_mem hK) (.arg h hv)

theorem fresh_eq_some_iff_of_bare (hp : p.Keyed) {K A : Node} (hK : p.Owns K)
    (h : K.bare = A.bare) (c : Const) : p.scene.fresh K = some c ↔ p.scene.Derives A c := by
  rw [Scene.fresh_eq_some_iff hp.closed p.scene_lists hK, ← Scene.derives_bare, h,
    Scene.derives_bare]

theorem fresh_eq_of_bare (hp : p.Keyed) {K K' : Node} (hK : p.Owns K) (hK' : p.Owns K')
    (h : K'.bare = K.bare) : p.scene.fresh K' = p.scene.fresh K := by
  refine Option.ext fun c => ?_
  rw [fresh_eq_some_iff_of_bare hp hK' h, Scene.fresh_eq_some_iff hp.closed p.scene_lists hK]

/-- An equality compares the values of its arguments. -/
theorem fresh_equal (hp : p.Keyed) (hK : .call h [x, y] ∈ p.nodes) (hh : h.isCallOf "=" = true) :
    p.scene.fresh (.call h [x, y]) =
      ((p.scene.fresh (.value x)).bind fun a => (p.scene.fresh (.value y)).bind fun b =>
        a.equal? b).map .bool := by
  have hname : Builtin.ofName? "=" = some .equal := by decide
  rw [Scene.fresh_eq_unfold hp.closed p.scene_lists (owns_of_mem hK)]
  obtain ⟨id, span, callee, clause⟩ := h
  cases callee with
  | script => cases hh
  | word name place =>
    obtain ⟨hclause, rfl⟩ : clause = false ∧ name = "=" := by simpa [Head.isCallOf] using hh
    have hcall : p.scene.unfold (m := Id) p.scene.fresh
          (.call ⟨id, span, .word "=" place, clause⟩ [x, y]) =
        Builtin.evalEqual (m := Id) false [p.scene.fresh (.value x), p.scene.fresh (.value y)] := by
      simp only [Scene.unfold, hclause, hname]
      rfl
    rw [hcall, Builtin.evalEqual_eq]
    refine congrArg (fun f => Option.map f _) (funext fun e => ?_)
    rw [Bool.bne_false]

/-- A node that is written as an equality with the arguments exchanged. -/
theorem exists_of_bare_eq {K : Node} (hK : K.bare = (Node.call h [y, x]).bare) :
    ∃ h' x' y', K = .call h' [y', x'] ∧ h'.bare = h.bare ∧ x'.bare = x.bare ∧
      y'.bare = y.bare := by
  cases K with
  | global => cases hK
  | value => cases hK
  | call h' =>
    obtain ⟨hhead, hargs⟩ := Node.call.inj hK
    obtain ⟨y', rest, rfl, hy, hrest⟩ := List.map_eq_cons_iff.mp hargs
    obtain ⟨x', rest, rfl, hx, hnil⟩ := List.map_eq_cons_iff.mp hrest
    obtain rfl := List.map_eq_nil_iff.mp hnil
    exact ⟨h', x', y', rfl, hhead, hx, hy⟩

/-- The same comparison in the other order. -/
theorem fresh_equal_swapped (hp : p.Keyed) (hK : .call h [x, y] ∈ p.nodes)
    (hh : h.isCallOf "=" = true) {K : Node} (hmem : K ∈ p.nodes)
    (hbare : K.bare = (Node.call h [y, x]).bare) : p.scene.fresh K =
      ((p.scene.fresh (.value y)).bind fun b => (p.scene.fresh (.value x)).bind fun a =>
        b.equal? a).map .bool := by
  obtain ⟨h', x', y', rfl, hhead, hx, hy⟩ := exists_of_bare_eq hbare
  have hargs : ∀ {v v' : Value}, v ∈ [x, y] → v' ∈ [y', x'] → v'.bare = v.bare →
      p.scene.fresh (.value v') = p.scene.fresh (.value v) := fun hv hv' h =>
    fresh_eq_of_bare hp (hp.owns_arg hK hv) (hp.owns_arg hmem hv') (congrArg Node.value h)
  have hcall : h'.isCallOf "=" = true := by rwa [← Head.isCallOf_bare, hhead, Head.isCallOf_bare]
  rw [fresh_equal hp hmem hcall, hargs (by simp) (by simp) hx, hargs (by simp) (by simp) hy]

/-- **Where the order of an equality matters.**  Two constants compare differently in the two orders
exactly if they are lopsided.  In a program, an equality and the same equality with its arguments
exchanged, wherever it stands, have different values exactly if one argument is a truth value and
the other one a real. -/
theorem equality_order_matters (a b : Const) (p : Program) (hp : p.Keyed) :
    (a.equal? b ≠ b.equal? a ↔ a.Lopsided b ∨ b.Lopsided a) ∧
    ∀ (h : Head) (x y : Value) (K : Node), h.isCallOf "=" = true →
      .call h [x, y] ∈ p.nodes → K ∈ p.nodes → K.bare = (Node.call h [y, x]).bare →
        (p.scene.fresh (.call h [x, y]) ≠ p.scene.fresh K ↔ ∃ q r,
          (p.scene.fresh (.value x) = some (.bool q) ∧ p.scene.fresh (.value y) = some (.real r)) ∨
          (p.scene.fresh (.value x) = some (.real r) ∧
            p.scene.fresh (.value y) = some (.bool q))) := by
  refine ⟨Const.equal?_ne_iff, fun h x y K hh hK hmem hbare => ?_⟩
  rw [fresh_equal hp hK hh, fresh_equal_swapped hp hK hh hmem hbare]
  have hcomputed : ∀ {v : Value} {c : Const}, v ∈ [x, y] → p.scene.fresh (.value v) = some c →
      c.Computed := fun hv hc =>
    ((Scene.fresh_eq_some_iff hp.closed p.scene_lists (hp.owns_arg hK hv) _).mp hc).computed
  cases hx : p.scene.fresh (.value x) with
  | none => simp
  | some c =>
    cases hy : p.scene.fresh (.value y) with
    | none => simp
    | some d =>
      have hc : c.Computed := hcomputed (by simp) hx
      have hd : d.Computed := hcomputed (by simp) hy
      rw [Option.bind_some, Option.bind_some, Option.bind_some, Option.bind_some,
        (Option.map_injective fun _ _ => Const.bool.inj).ne_iff, Const.equal?_ne_iff,
        hc.lopsided_iff hd, hd.lopsided_iff hc]
      constructor
      · rintro (⟨q, r, rfl, rfl⟩ | ⟨q, r, rfl, rfl⟩)
        · exact ⟨q, r, .inl ⟨rfl, rfl⟩⟩
        · exact ⟨q, r, .inr ⟨rfl, rfl⟩⟩
      · rintro ⟨q, r, ⟨hc, hd⟩ | ⟨hc, hd⟩⟩
        · exact .inl ⟨q, r, Option.some.inj hc, Option.some.inj hd⟩
        · exact .inr ⟨q, r, Option.some.inj hd, Option.some.inj hc⟩

def equalitySample : Entry :=
  .source ⟨"a", "(script startup f(=(or true)(min 1))(=(min 1)(or true)))"⟩

/-- A call of a word with one word, as it is written. -/
def bareCall (name arg : Text) : Value :=
  .call ⟨0, none⟩ ⟨0, none, .word name none, false⟩ [.leaf ⟨0, none⟩ (.atom arg)]

theorem derives_or_true (scene : Scene) :
    scene.Derives (.value (bareCall "or" "true")) (.bool true) := ⟨3, rfl⟩

theorem derives_min_one (scene : Scene) :
    scene.Derives (.value (bareCall "min" "1")) (.real (.ofInt 1)) := by
  have hone : (Const.atom "1").toReal? = some (.ofInt 1) := by decide +kernel
  have hmin : scene.plain 3 (.value (bareCall "min" "1")) =
      Builtin.evalExtreme (m := Option) Single.min [some (some (.atom "1"))] := rfl
  refine ⟨3, ?_⟩
  simp [hmin, Builtin.evalExtreme, Builtin.asReal, hone, Builtin.evalFoldFrom]

set_option maxRecDepth 20000 in
/-- The truth value `true` against 1, as constants and in a program. -/
theorem equality_order_matters_sample :
    ((Const.bool true).Lopsided (.long 1) ∧
      (Const.bool true).equal? (.long 1) ≠ (Const.long 1).equal? (.bool true)) ∧
    let p := (load {} {} {} equalitySample).program
    ∃ h x y K, (p.Keyed ∧ h.isCallOf "=" = true ∧ .call h [x, y] ∈ p.nodes ∧ K ∈ p.nodes ∧
        K.bare = (Node.call h [y, x]).bare ∧ p.scene.fresh (.value x) = some (.bool true) ∧
        p.scene.fresh (.value y) = some (.real (.ofInt 1))) ∧
      p.scene.fresh (.call h [x, y]) ≠ p.scene.fresh K := by
  have hwritten : (fun nodes : List Node => (nodes[1]?.map Node.bare, nodes[9]?.map Node.bare))
      (load {} {} {} equalitySample).program.nodes =
        (some (.call ⟨0, none, .word "=" none, false⟩ [bareCall "or" "true", bareCall "min" "1"]),
          some (.call ⟨0, none, .word "=" none, false⟩
            [bareCall "min" "1", bareCall "or" "true"])) := by cbv
  have hp : (load {} {} {} equalitySample).program.Keyed :=
    (loaded_numbered {} {} equalitySample).keyed
  have hlopsided : (Const.bool true).Lopsided (.long 1) := .truth true trivial
  obtain ⟨hconst, hcalls⟩ := equality_order_matters (.bool true) (.long 1) _ hp
  refine ⟨⟨hlopsided, hconst.mpr (.inl hlopsided)⟩, ?_⟩
  intro p
  rw [Prod.mk.injEq, Option.map_eq_some_iff, Option.map_eq_some_iff] at hwritten
  obtain ⟨⟨K, hfirst, hK⟩, K', hsecond, hK'⟩ := hwritten
  obtain ⟨h, y, x, rfl, hh, hy, hx⟩ := exists_of_bare_eq (h := ⟨0, none, .word "=" none, false⟩)
    (x := bareCall "min" "1") (y := bareCall "or" "true") hK
  have hcall : h.isCallOf "=" = true := by
    rw [← Head.isCallOf_bare, hh]
    decide
  have hswapped : K'.bare = (Node.call h [y, x]).bare := by
    simp only [Node.bare, List.map_cons, List.map_nil, hh, hx, hy]
    exact hK'
  have hmem : .call h [x, y] ∈ p.nodes := List.mem_of_getElem? hfirst
  have hmem' : K' ∈ p.nodes := List.mem_of_getElem? hsecond
  have hvalue : ∀ {v w : Value} {c : Const}, v ∈ [x, y] → v.bare = w.bare →
      p.scene.Derives (.value w) c → p.scene.fresh (.value v) = some c := by
    intro v w c hv hbare hw
    have hnode : (Node.value v).bare = (Node.value w).bare := congrArg Node.value hbare
    exact (fresh_eq_some_iff_of_bare hp (hp.owns_arg hmem hv) hnode c).mpr hw
  have htrue := hvalue (by simp) hx (derives_or_true p.scene)
  have hone := hvalue (by simp) hy (derives_min_one p.scene)
  exact ⟨h, x, y, K', ⟨hp, hcall, hmem, hmem', hswapped, htrue, hone⟩,
    (hcalls h x y K' hcall hmem hmem' hswapped).mpr ⟨true, .ofInt 1, .inl ⟨htrue, hone⟩⟩⟩

end Program

end HaloScript
