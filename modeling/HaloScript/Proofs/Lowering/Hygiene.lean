/-
# Macro expansion is substitution

What a call of a macro is expanded to is the macro's body with every leaf that is written as a
parameter replaced by the argument of this parameter, up to the numbers of nodes
(`Script.Instantiates`).  The replacements happen all at once, since a leaf is replaced by the
argument as it is (`Value.replace`); no function name changes.  It does not matter what else is
declared under the name of a parameter: inside its macro, the name is linked to nothing
(`Program.Linked.find?_substitution`).

It does not matter either what has been expanded before: the macros stay as they are
(`Macros.Templates`), so equal arguments lead to equal expansions at all times
(`Program.load_hygienic`).
-/
import HaloScript.Proofs.Links
import HaloScript.Proofs.Lowering.Expansions

namespace HaloScript

open List Option Value

variable {m : Script} {p : Program}

/-! ## 1. Values without numbers -/

namespace Value

mutual

def unnumbered : Value → Value
  | .leaf t l => .leaf { t with id := 0 } l
  | .call t h args => .call { t with id := 0 } { h with id := 0 } (unnumberedAll args)

def unnumberedAll : List Value → List Value
  | [] => []
  | v :: rest => unnumbered v :: unnumberedAll rest

end

theorem unnumberedAll_eq_map (vs : List Value) : unnumberedAll vs = vs.map unnumbered := by
  induction vs with
  | nil => rfl
  | cons v rest ih => rw [unnumberedAll, ih, map_cons]

mutual

/-- **A copy is the value with other numbers.** -/
theorem unnumbered_copy (v : Value) (n : NodeId) : (v.copy n).1.unnumbered = v.unnumbered := by
  match v with
  | .leaf t l => rfl
  | .call t h args => rw [copy_call_run, unnumbered, unnumbered, unnumberedAll_copyAll args]

theorem unnumberedAll_copyAll (vs : List Value) (n : NodeId) :
    unnumberedAll (copyAll vs n).1 = unnumberedAll vs := by
  match vs with
  | [] => rfl
  | v :: rest =>
    rw [copyAll_cons_run, unnumberedAll, unnumberedAll, unnumbered_copy v,
      unnumberedAll_copyAll rest]

end

theorem unnumbered_copyAt (id : NodeId) (v : Value) (n : NodeId) :
    (v.copyAt id n).1.unnumbered = v.unnumbered := by
  cases v with
  | leaf => rfl
  | call t h args =>
    show (Value.call { t with id } { h with id := n } (copyAll args (n + 1)).1).unnumbered = _
    rw [unnumbered, unnumbered, unnumberedAll_copyAll args]

mutual

theorem leaves_unnumbered (v : Value) : v.unnumbered.leaves = v.leaves := by
  match v with
  | .leaf t l => rfl
  | .call t h args => exact leavesAll_unnumberedAll args

theorem leavesAll_unnumberedAll (vs : List Value) :
    leavesAll (unnumberedAll vs) = leavesAll vs := by
  match vs with
  | [] => rfl
  | v :: rest =>
    rw [unnumberedAll, leavesAll, leavesAll, leaves_unnumbered v, leavesAll_unnumberedAll rest]

end

/-! ## 2. Replacing leaves by what they are written as -/

mutual

/-- The value with leaves replaced by what their texts stand for. -/
def replace (f : Text → Option Value) : Value → Value
  | .leaf t l => (l.text?.bind f).getD (.leaf t l)
  | .call t h args => .call t h (replaceAll f args)

def replaceAll (f : Text → Option Value) : List Value → List Value
  | [] => []
  | v :: rest => replace f v :: replaceAll f rest

end

theorem replaceAll_eq_map (f : Text → Option Value) (vs : List Value) :
    replaceAll f vs = vs.map (replace f) := by
  induction vs with
  | nil => rfl
  | cons v rest ih => rw [replaceAll, ih, map_cons]

variable {f g : Text → Option Value}

mutual

/-- Numbers do not matter, neither those of the value nor those of what is put in. -/
theorem unnumbered_replace (hfg : ∀ t, (f t).map unnumbered = (g t).map unnumbered) {v w : Value}
    (h : v.unnumbered = w.unnumbered) : (v.replace f).unnumbered = (w.replace g).unnumbered := by
  match v, w with
  | .leaf t l, .leaf t' l' =>
    obtain ⟨htag, rfl⟩ := Value.leaf.inj h
    rw [replace, replace]
    cases htext : l.text? with
    | none => exact h
    | some text =>
      have hsame := hfg text
      rw [bind_some, bind_some]
      cases hf : f text with
      | none =>
        rw [hf, map_none, eq_comm, map_eq_none_iff] at hsame
        rw [hsame]
        exact h
      | some =>
        rw [hf, map_some, eq_comm, map_eq_some_iff] at hsame
        obtain ⟨new', hg, hnew⟩ := hsame
        rw [hg]
        exact hnew.symm
  | .call t head args, .call t' head' args' =>
    obtain ⟨htag, hhead, hargs⟩ := Value.call.inj h
    rw [replace, replace, unnumbered, unnumbered, htag, hhead, unnumberedAll_replaceAll hfg hargs]
  | .leaf .., .call .. => cases h
  | .call .., .leaf .. => cases h

theorem unnumberedAll_replaceAll (hfg : ∀ t, (f t).map unnumbered = (g t).map unnumbered)
    {vs ws : List Value} (h : unnumberedAll vs = unnumberedAll ws) :
    unnumberedAll (replaceAll f vs) = unnumberedAll (replaceAll g ws) := by
  match vs, ws with
  | [], [] => rfl
  | v :: rest, w :: rest' =>
    obtain ⟨hhead, htail⟩ := List.cons.inj h
    rw [replaceAll, replaceAll, unnumberedAll, unnumberedAll, unnumbered_replace hfg hhead,
      unnumberedAll_replaceAll hfg htail]
  | [], _ :: _ => cases h
  | _ :: _, [] => cases h

end

variable {m : Substitution}

mutual

/-- **Substitution replaces leaves**, if it finds what their texts stand for. -/
theorem unnumbered_substitute (v : Value) (n : NodeId)
    (hfind : ∀ l ∈ v.leaves, m.find? l = l.text?.bind f) :
    (v.substitute m n).1.unnumbered = (v.replace f).unnumbered := by
  match v with
  | .leaf t l =>
    have hl := hfind l mem_cons_self
    rw [substitute_leaf_run, replace, ← hl]
    cases m.find? l with
    | none => rfl
    | some new => exact unnumbered_copyAt t.id new n
  | .call t h args =>
    rw [substitute_call_run, replace, unnumbered, unnumbered,
      unnumberedAll_substituteAll args n hfind]

theorem unnumberedAll_substituteAll (vs : List Value) (n : NodeId)
    (hfind : ∀ l ∈ leavesAll vs, m.find? l = l.text?.bind f) :
    unnumberedAll (substituteAll m vs n).1 = unnumberedAll (replaceAll f vs) := by
  match vs with
  | [] => rfl
  | v :: rest =>
    rw [leavesAll, forall_mem_append] at hfind
    rw [substituteAll_cons_run, replaceAll, unnumberedAll, unnumberedAll,
      unnumbered_substitute v n hfind.1, unnumberedAll_substituteAll rest _ hfind.2]

end

/-- **An instance is the original with its leaves replaced.** -/
theorem unnumberedAll_instantiateAll (vs : List Value) (n : NodeId)
    (hfind : ∀ l ∈ leavesAll vs, m.find? l = l.text?.bind f) :
    unnumberedAll (instantiateAll m vs n).1 = unnumberedAll (replaceAll f vs) := by
  have hcopy := unnumberedAll_copyAll vs n
  have hleaves : leavesAll (copyAll vs n).1 = leavesAll vs := by
    rw [← leavesAll_unnumberedAll, hcopy, leavesAll_unnumberedAll]
  rw [instantiateAll_run, unnumberedAll_substituteAll _ _ (hleaves ▸ hfind)]
  exact unnumberedAll_replaceAll (fun _ => rfl) hcopy

end Value

/-! ## 3. Arguments in place of parameters -/

/-- The argument that a call has for a parameter; of two parameters with one name the last. -/
def Script.argument? (m : Script) (args : List Value) (name : Text) : Option Value :=
  ((m.params.zip args).filter (·.1.name == name)).getLast?.map Prod.snd

/-- The values are those of the body of the macro, one by one, with the arguments in place of the
parameters, up to numbers. -/
def Script.Instantiates (m : Script) (args vs : List Value) : Prop :=
  vs.map unnumbered = m.body.map fun v => (v.replace (m.argument? args)).unnumbered

theorem Script.argument?_eq_none {name : Text} (h : m.isParam name = false) (args : List Value) :
    m.argument? args name = none := by
  have hnone : (m.params.zip args).filter (·.1.name == name) = [] := by
    rw [filter_eq_nil_iff]
    intro x hx
    have hparam := List.any_eq_false.mp h x.1 (of_mem_zip hx).1
    simpa using hparam
  rw [argument?, hnone]
  rfl

theorem Script.argument?_map (m : Script) (f : Value → Value) (args : List Value) (name : Text) :
    m.argument? (args.map f) name = (m.argument? args name).map f := by
  rw [argument?, argument?, zip_map_right, List.filter_map, getLast?_map, Option.map_map,
    Option.map_map]
  rfl

namespace Macros

/-- An atom is replaced by the last argument for it. -/
theorem find?_substitution_atom (m : Script) (args : List Value) (name : Text) :
    (substitution m.params args).find? (.atom name) = m.argument? args name := by
  rw [Substitution.find?, substitution, Script.argument?]
  generalize m.params.zip args = pairs
  -- the last pair is looked up first
  induction pairs using List.reverseRecOn with
  | nil => rfl
  | append_singleton pairs x ih =>
    rw [map_append, reverse_append, filter_append]
    change List.lookup (Leaf.atom name) ((Leaf.atom x.1.name, x.2) :: _) = _
    rw [lookup_cons]
    by_cases hname : x.1.name = name
    · subst hname
      simp
    · have hatom : (Leaf.atom name == .atom x.1.name) = false := by
        simpa using fun h => hname h.symm
      have hfilter : [x].filter (·.1.name == name) = [] := by simpa using hname
      rw [hatom, hfilter, append_nil, ← ih]
      rfl

/-- Nothing else is replaced. -/
theorem find?_substitution_of_ne (params : List Param) (args : List Value) {l : Leaf}
    (hl : ∀ name, l ≠ .atom name) : (substitution params args).find? l = none := by
  rw [Substitution.find?, lookup_eq_none_iff]
  intro x hx
  obtain ⟨y, -, rfl⟩ := List.mem_map.mp (mem_reverse.mp hx)
  simpa using hl y.1.name

end Macros

section

variable (h : p.Linked (.script m)) (hkind : m.isMacro = true)

include h hkind

/-- **What is written as a parameter is linked to nothing**, whatever else has this name. -/
theorem Program.Linked.eq_atom {l : Leaf} (hl : l ∈ Value.leavesAll m.body) {name : Text}
    (hname : l.text? = some name) (hparam : m.isParam name = true) : l = .atom name := by
  have htarget : l.target? = none := by
    rw [h.leaves l hl, hname, bind_some, Program.meant?, Declaration.hides, hkind, hparam]
    rfl
  cases l with
  | blank => cases hname
  | atom => rw [some.inj hname]
  | global | script => cases htarget

/-- **A parameter stands for its argument.**  In the body of a macro that is linked, substitution
finds the argument for every leaf that is written as a parameter, and nothing for any other leaf. -/
theorem Program.Linked.find?_substitution (args : List Value) :
    ∀ l ∈ Value.leavesAll m.body, (Macros.substitution m.params args).find? l =
      l.text?.bind (m.argument? args) := by
  intro l hl
  by_cases hatom : ∃ name, l = .atom name
  · obtain ⟨name, rfl⟩ := hatom
    exact Macros.find?_substitution_atom m args name
  · rw [Macros.find?_substitution_of_ne m.params args fun name heq => hatom ⟨name, heq⟩]
    cases hname : l.text? with
    | none => rfl
    | some name =>
      refine (Script.argument?_eq_none (Bool.eq_false_iff.mpr fun hparam => ?_) args).symm
      exact hatom ⟨name, h.eq_atom hkind hl hname hparam⟩

theorem Program.Linked.instantiates (args : List Value) (n : NodeId) : m.Instantiates args
      (Value.instantiateAll (Macros.substitution m.params args) m.body n).1 := by
  have hbody := Value.unnumberedAll_instantiateAll (f := m.argument? args) m.body n
    (h.find?_substitution hkind args)
  rw [Value.unnumberedAll_eq_map, Value.unnumberedAll_eq_map, Value.replaceAll_eq_map,
    List.map_map] at hbody
  exact hbody

end

/-- Equal arguments make equal instances. -/
theorem Script.Instantiates.unique {args args' vs vs' : List Value} (h : m.Instantiates args vs)
    (h' : m.Instantiates args' vs') (hargs : args.map unnumbered = args'.map unnumbered) :
    vs.map unnumbered = vs'.map unnumbered := by
  have hsame : ∀ name, (m.argument? args name).map unnumbered =
      (m.argument? args' name).map unnumbered := by
    intro name
    rw [← argument?_map, hargs, argument?_map]
  rw [h, h']
  exact map_congr_left fun v _ => Value.unnumbered_replace hsame rfl

/-! ## 4. Instances on record -/

namespace Macros

/-- A call that was tried is expanded to an instance of the macro that it calls. -/
def Attempt.IsInstance (script? : ScriptId → Option Script) (a : Attempt) : Prop :=
  ∀ vs, a.result = some vs → ∃ m n, a.head.template? script? = some m ∧
    vs = (Value.instantiateAll (substitution m.params a.args) m.body n).1

section Trying

variable {script? : ScriptId → Option Script}

theorem Trial.isInstance {h : Head} {args : List Value} {e e' : Env} {r : Option (List Value)}
    {new : List Attempt} (ht : Trial script? h args e r e' new) :
    ∀ a ∈ new, a.IsInstance script? := by
  intro a ha vs hvs
  cases ht with
  | other | aside | wrong => exact absurd ha not_mem_nil
  | exceeded =>
    obtain rfl := mem_singleton.mp ha
    cases hvs
  | expanded hm hmark hargs hspend hbody =>
    obtain rfl := mem_singleton.mp ha
    cases hvs
    exact ⟨_, _, hm, by rw [hbody]⟩

theorem Trials.isInstance {v v' : Value} {e e' : Env} {new : List Attempt}
    (ht : Trials script? v e v' e' new) : ∀ a ∈ new, a.IsInstance script? := by
  induction ht with
  | leaf => exact fun _ ha => absurd ha not_mem_nil
  | stays ht => exact ht.isInstance
  | blocks ht => exact ht.isInstance
  | turns ht _ ih => exact forall_mem_append.mpr ⟨ht.isInstance, ih⟩

end Trying

theorem attemptsElement_isInstance (view : View) (place : Place) (v : Value) (e : Env) :
    ∀ a ∈ attemptsElement view place v e, a.IsInstance view.script? := by
  unfold attemptsElement
  split
  · exact fun _ ha => absurd ha not_mem_nil
  · next t h args =>
    split
    · exact (expand?_trial view h args e).isInstance
    · exact fun _ ha => absurd ha not_mem_nil

/-- All calls on record are expanded from the macros of the program at the start. -/
structure Instances (p : Program) (s : Standing (Env × List Attempt)) : Prop where
  templates : Templates p s.plain
  log : ∀ a ∈ s.state.2, a.IsInstance p.script?

/-- **Every move on record puts instances on record.** -/
theorem Instances.move {p : Program} {s s' : Standing (Env × List Attempt)} (h : Instances p s)
    (hs : s.Orderly p) (hp : p.Tidy) (hmove : Move (hooks.recorded recorder) s s') :
    Instances p s' := by
  have htemplates := h.templates.move hs.plain hp hmove.plain
  have hnew : ∀ view : View, view.Shows s → ∀ new : List Attempt,
      (∀ a ∈ new, a.IsInstance view.script?) → ∀ a ∈ s.state.2 ++ new, a.IsInstance p.script? := by
    intro view hview new hnew
    refine forall_mem_append.mpr ⟨h.log, fun a ha vs hvs => ?_⟩
    obtain ⟨m, n, hm, rfl⟩ := hnew a ha vs hvs
    exact ⟨m, n, h.templates.template?_eq hs.plain hp hview.plain a.head ▸ hm, rfl⟩
  cases hmove with
  | global | script | call | skip => exact ⟨htemplates, h.log⟩
  | element view d spot vs rest hview =>
    exact ⟨htemplates, hnew view hview _ (attemptsElement_isInstance view _ _ _)⟩
  | value view d spot vs rest hview =>
    exact ⟨htemplates, hnew view hview _ (expandValue_trials view _ _).isInstance⟩

/-- **A call with the right number of arguments is expanded**, unless it has been set aside or the
budget does not cover it. -/
theorem expand?_of_covers {view : View} {h : Head} {m : Script} {args : List Value} {e : Env}
    (hm : h.template? view.script? = some m) (hargs : args.length = m.params.length)
    (hmark : e.isMarked h.id = false) (hcovers : e.budget.covers 1 = true) :
    ∃ vs e', expand? view h args e = (some vs, e') := by
  have hopen : e.budget.exhausted = false := by
    cases hx : e.budget.exhausted with
    | false => rfl
    | true => simp [Budget.covers, hx] at hcovers
  have hspend : (e.spend 1 h.span).1 = true := by simp [Env.spend, hopen, hcovers]
  rw [expand?_of_some hm, hmark, if_neg Bool.false_ne_true, if_neg (not_not.mpr hargs), hspend,
    if_pos rfl]
  exact ⟨_, _, rfl⟩

end Macros

/-! ## 5. Macros of a program -/

theorem Env.exists_fresh_eq (n : NodeId) (before : Report) (limit : Int64) :
    ∃ limit', 1 ≤ limit' ∧ Env.fresh n before limit = .fresh n before limit' := by
  by_cases hle : limit ≤ 0
  · refine ⟨Budget.defaultLimit, by decide, ?_⟩
    have hsame : Budget.limitOf limit = Budget.limitOf Budget.defaultLimit := if_pos hle
    simp only [Env.fresh, Budget.ofLimit, hsame]
  · have hpos : ¬ limit.toInt ≤ 0 := fun h => hle (Int64.le_iff_toInt_le.mpr h)
    exact ⟨limit, Int64.le_iff_toInt_le.mpr (by omega : (1 : Int) ≤ limit.toInt), rfl⟩

namespace Program

open Macros

/-- Macro expansion of the program `p`, after `k` steps. -/
abbrev expansion (p : Program) (before : Report) (limit : Int64) (k : Nat) : Machine Env :=
  p.moment Macros.hooks (.fresh p.nextNode before limit) k

/-- How the macro `m` is expanded, while the macros of the program `p` are. -/
structure Replaces (p : Program) (before : Report) (limit : Int64) (m : Script) : Prop where
  /-- In the body, what is written as a parameter is linked to nothing. -/
  atoms : ∀ l ∈ Value.leavesAll m.body, ∀ name, l.text? = some name → m.isParam name = true →
    l = .atom name
  /-- The macro stays as it is. -/
  kept : ∀ k, (p.expansion before limit k).program.script? m.id = some m
  /-- Until the budget is exhausted, no call with the right number of arguments is set aside. -/
  ready : ∀ k, ∀ d ∈ p.allIds, ∀ h args,
    .call h args ∈ Value.nodesAll ((p.expansion before limit k).now.content d) →
      h.callee = .script m.id → args.length = m.params.length →
        (p.expansion before limit k).state.budget.exhausted = false →
          (p.expansion before limit k).state.isMarked h.id = false
  /-- Any call with the right number of arguments that is not set aside and that the budget covers
  is expanded to an instance of the body, in which all nodes are new. -/
  expands : ∀ k frames h args e, h.callee = .script m.id → args.length = m.params.length →
    e.isMarked h.id = false → e.budget.covers 1 = true →
      ∃ vs e', expand? (.during (p.expansion before limit k).program frames) h args e =
        (some vs, e') ∧ m.Instantiates args vs ∧ (Value.numbers vs).Nodup ∧
          ∀ i ∈ Value.numbers vs, e.nextNode ≤ i
  /-- Equal arguments lead to equal expansions, whenever that is. -/
  alike : ∀ k k' frames frames' h h' args args' e e' vs vs',
    h.callee = .script m.id → h'.callee = .script m.id →
      args.map unnumbered = args'.map unnumbered →
        (expand? (.during (p.expansion before limit k).program frames) h args e).1 = some vs →
          (expand? (.during (p.expansion before limit k').program frames') h' args' e').1 =
              some vs' →
            vs.map unnumbered = vs'.map unnumbered
  /-- The calls that are expanded become instances. -/
  recorded : ∀ a ∈ p.attempts before limit, a.head.callee = .script m.id →
    ∀ vs, a.result = some vs → m.Instantiates a.args vs

variable {p : Program} {m : Script}

/-- **Macros are as they were, at every moment.** -/
theorem expansion_script? (hp : p.Tidy) (hm : p.script? m.id = some m) (hkind : m.isMacro = true)
    (before : Report) (limit : Int64) (k : Nat) :
    (p.expansion before limit k).program.script? m.id = some m := by
  obtain ⟨trail, hs, hview, htemplates⟩ := moment_keeps hp (.fresh p.nextNode before limit)
    (templates_start hp _) (fun _ _ hs hq hmove => hq.move hs hp hmove) k
  exact htemplates.shows hs hp hview hm hkind

variable {before : Report} {limit : Int64} {k : Nat} {h : Head} {args vs : List Value}

/-- A call with the right number of arguments is not set aside before the budget is exhausted. -/
theorem expansion_isMarked (hp : p.Tidy) (hn : p.Numbered) {d : DeclId} (hd : d ∈ p.allIds)
    (hmem : .call h args ∈ Value.nodesAll ((p.expansion before limit k).now.content d))
    (hm : h.template? p.script? = some m) (hargs : args.length = m.params.length)
    (hopen : (p.expansion before limit k).state.budget.exhausted = false) :
    (p.expansion before limit k).state.isMarked h.id = false := by
  obtain ⟨limit', hlimit, hfresh⟩ := Env.exists_fresh_eq p.nextNode before limit
  -- what is set aside is accounted for by the record
  rw [expansion, hfresh, ← moment_recorded p Macros.hooks recorder _ [] k] at hmem hopen ⊢
  obtain ⟨trail, -, -, htracks⟩ := moment_keeps (h := Macros.hooks.recorded recorder) hp
    (Env.fresh p.nextNode before limit', []) (tracks_start hp before hlimit)
    (fun _ _ hs hq hmove => hq.move hs hp hn hmove) k
  rw [Bool.eq_false_iff]
  intro hmark
  have hexhausted := htracks.accounts.aside d hd h args hmem hmark m hm hargs
  exact Bool.eq_false_iff.mp hopen hexhausted

/-- What a call of a macro is expanded to at any moment is an instance of the macro. -/
theorem instantiates_of_expand? (hp : p.Tidy) (hm : p.script? m.id = some m)
    (hkind : m.isMacro = true) (hlinked : p.Linked (.script m)) {frames : List Frame} {e : Env}
    (hcallee : h.callee = .script m.id)
    (hx : (expand? (.during (p.expansion before limit k).program frames) h args e).1 = some vs) :
    m.Instantiates args vs := by
  obtain ⟨m', n, hm', -, rfl⟩ := expand?_some (Prod.ext hx rfl)
  have hkept := expansion_script? hp hm hkind before limit k
  obtain rfl := Head.eq_of_template? hm' hcallee hkept
  exact hlinked.instantiates hkind args n

/-- **The calls that macro expansion expands become instances of their macros.** -/
theorem attempts_isInstance (hp : p.Tidy) (before : Report) (limit : Int64) :
    ∀ a ∈ p.attempts before limit, a.IsInstance p.script? := by
  obtain ⟨s, hs, hf⟩ := walk_final hp (Macros.hooks.recorded recorder)
    (.fresh p.nextNode before limit, [])
    ⟨templates_start hp _, fun _ ha => absurd ha not_mem_nil⟩
    fun s s' hs (hq : Instances p s) hmove => hq.move hs hp hmove
  have hlog : p.attempts before limit = s.state.2 := congrArg Prod.snd hf.state
  rw [hlog]
  exact hs.log

/-- **A macro that is linked is expanded by substitution.** -/
theorem replaces (hp : p.Tidy) (hn : p.Numbered) (hm : p.script? m.id = some m)
    (hkind : m.isMacro = true) (hlinked : p.Linked (.script m)) (before : Report)
    (limit : Int64) : p.Replaces before limit m where
  atoms l hl name hname hparam := hlinked.eq_atom hkind hl hname hparam
  kept := expansion_script? hp hm hkind before limit
  ready k d hd h args hmem hcallee hargs hopen :=
    expansion_isMarked hp hn hd hmem (Head.template?_eq_some.mpr ⟨_, hcallee, hm, hkind⟩) hargs
      hopen
  expands k frames h args e hcallee hargs hmark hcovers := by
    have hkept : (View.during (p.expansion before limit k).program frames).script? m.id = some m :=
      expansion_script? hp hm hkind before limit k
    obtain ⟨vs, e', hx⟩ := expand?_of_covers
      (Head.template?_eq_some.mpr ⟨_, hcallee, hkept, hkind⟩) hargs hmark hcovers
    have ht := expand?_trial (.during (p.expansion before limit k).program frames) h args e
    rw [hx] at ht
    exact ⟨vs, e', hx,
      instantiates_of_expand? hp hm hkind hlinked hcallee (congrArg Prod.fst hx),
      ht.numbers.nodup nodup_nil fun _ hi => absurd hi not_mem_nil,
      fun i hi => ht.nextNode_le hi⟩
  alike k k' frames frames' h h' args args' e e' vs vs' hcallee hcallee' hargs hx hx' :=
    (instantiates_of_expand? hp hm hkind hlinked hcallee hx).unique
      (instantiates_of_expand? hp hm hkind hlinked hcallee' hx') hargs
  recorded a ha hcallee vs hvs := by
    obtain ⟨m', n, hm', rfl⟩ := attempts_isInstance hp before limit a ha vs hvs
    obtain rfl := Head.eq_of_template? hm' hcallee hm
    exact hlinked.instantiates hkind a.args n

/-- The macros of a program are expanded by substitution. -/
def Hygienic (p : Program) (before : Report) (limit : Int64) : Prop :=
  ∀ m, .script m ∈ p.declarations → m.isMacro = true → p.Replaces before limit m

/-- **Macro expansion is simultaneous, hygienic substitution.**  In a program that is loaded without
errors, every call of a macro with the right number of arguments is expanded, while the budget
lasts, to the body of the macro with the arguments in place of the parameters; and since no
expansion changes a macro, equal arguments lead to equal expansions. -/
theorem load_hygienic (lib : Library) (entry : Entry) (hok : (load {} {} lib entry).ok = true)
    (before : Report) (limit : Int64) : (load {} {} lib entry).program.Hygienic before limit := by
  intro m hdeclared hkind
  have hp : (load {} {} lib entry).program.Tidy := load_tidy tidy_empty {} lib entry
  have hn := loaded_numbered {} lib entry
  obtain ⟨-, -, -, hlinked⟩ := load_linked hok
  have hm := hp.script?_id (mem_all_script.mp (hp.mem_declarations.mp hdeclared).1)
  exact replaces hp hn hm hkind (hlinked _ hdeclared) before limit

/-- A macro with a parameter that is also the name of a global, and a call in which names of
parameters are arguments. -/
def parameterSample : Entry :=
  .source ⟨"a", "(global s x 1)(script macro s m(s x s y)(p x)(y y))(script startup f(m y x))"⟩

set_option maxRecDepth 20000 in
theorem load_hygienic_parameterSample : (load {} {} {} parameterSample).ok = true ∧
    ((load {} {} {} parameterSample).program.attempts {} 0).map (·.result.isSome) = [true] ∧
    (load {} {} {} parameterSample).program.Hygienic {} 0 := by
  have hok : (load {} {} {} parameterSample).ok = true := by cbv
  exact ⟨hok, by cbv, load_hygienic {} parameterSample hok {} 0⟩

end Program

end HaloScript
