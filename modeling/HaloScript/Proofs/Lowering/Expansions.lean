/-
# Macro expansion within its budget

Macros may expand into themselves, so only the budget ends their expansion.  The record of the
calls that are tried (`Program.attempts`) says what the budget is spent on:

* no call is tried twice, since after a trial it is gone or set aside (`Macros.Accounts`); this
  needs numbers, by which calls are told apart, and that expansion draws new ones;
* the calls at the head of the record are expanded, as many as the limit allows, and the first one
  after them is complained about (`Macros.Ledger`);
* every call that is left has been visited, so it is none of a macro, or it is set aside.

All of it is kept by every move of the walk on record (`Macros.Tracks.move`), which gives
`Program.load_expands_within`.
-/
import HaloScript.Proofs.Lowering.Trials

namespace HaloScript

open List Env Value

variable {vs xs ys : List Value} {spot : Spot}

/-! ## 1. Calls after an edit -/

theorem Spot.Edit.length_cases {o : Owner} (hedit : spot.Edit vs o xs ys) :
    ys.length = xs.length ∨ (vs.length ≠ 1 ∧ spot.owner = o) := by
  cases hedit with
  | here =>
    by_cases hone : vs.length = 1
    · left
      simp only [length_append, length_cons, hone]
      omega
    · exact .inr ⟨hone, rfl⟩
  | inside left =>
    left
    simp only [length_append, length_cons]

/-- **The calls of a list after an edit.**  A call is one of those that were put in, or it was
there before; it has as many arguments as before, unless these are the list that was edited. -/
theorem Spot.Edit.call_cases {o : Owner} (hedit : spot.Edit vs o xs ys) {h : Head}
    {args : List Value} (hmem : Node.call h args ∈ nodesAll ys) :
    .call h args ∈ nodesAll vs ∨
      ∃ args₀, .call h args₀ ∈ nodesAll xs ∧
        (args.length = args₀.length ∨ (vs.length ≠ 1 ∧ ∃ t, spot.owner = .call t h)) := by
  induction hedit with
  | here =>
    simp only [nodesAll_append, nodesAll, mem_append] at hmem ⊢
    rcases hmem with hmem | hmem | hmem
    · exact .inr ⟨args, .inl hmem, .inl rfl⟩
    · exact .inl hmem
    · exact .inr ⟨args, .inr (.inr hmem), .inl rfl⟩
  | @inside outer t head inner inner' left right hinner ih =>
    simp only [nodesAll_append, nodesAll, nodes, mem_append, mem_cons,
      reduceCtorEq, false_or] at hmem ⊢
    rcases hmem with hmem | (heq | hmem) | hmem
    · exact .inr ⟨args, .inl hmem, .inl rfl⟩
    · -- the call whose arguments were edited
      obtain ⟨rfl, rfl⟩ := Node.call.inj heq
      exact .inr ⟨inner, .inr (.inl (.inl rfl)),
        hinner.length_cases.imp_right fun ⟨hone, howner⟩ => ⟨hone, t, howner⟩⟩
    · rcases ih hmem with hmem | ⟨args₀, hmem, hlength⟩
      · exact .inl hmem
      · exact .inr ⟨args₀, .inr (.inl (.inr hmem)), hlength⟩
    · exact .inr ⟨args, .inr (.inr hmem), .inl rfl⟩

theorem Program.node_eq {q : Program} (hnodup : q.numbers.Nodup) {d d' : DeclId}
    (hd : d ∈ q.allIds) (hd' : d' ∈ q.allIds) {K A : Node}
    (hK : K ∈ nodesAll (q.content d)) (hA : A ∈ nodesAll (q.content d'))
    (hnumber : K.number = A.number) : K = A := by
  have hmap : q.numbers =
      (q.allIds.flatMap fun d => nodesAll (q.content d)).map Node.number := by
    rw [map_flatMap]
    rfl
  rw [hmap] at hnodup
  exact inj_on_of_nodup_map hnodup (mem_flatMap.mpr ⟨d, hd, hK⟩)
    (mem_flatMap.mpr ⟨d', hd', hA⟩) hnumber

/-- What was put in is there after an edit. -/
theorem Spot.Edit.nodesAll_subset {o : Owner} (hedit : spot.Edit vs o xs ys) :
    nodesAll [spot.focus] ⊆ nodesAll xs ∧
      nodesAll vs ⊆ nodesAll ys := by
  induction hedit with
  | here =>
    simp only [nodesAll_append, nodesAll, append_nil]
    exact ⟨fun K hK => by simp [hK], fun K hK => by simp [hK]⟩
  | inside left right hargs ih =>
    simp only [nodesAll_append, nodesAll, nodes]
    exact ⟨fun K hK => by simp [ih.1 hK], fun K hK => by simp [ih.2 hK]⟩

/-! ## 2. Accounts -/

namespace Macros

variable {spot : Spot} {d : DeclId}

/-- The calls that are set aside and those that are on record, in the program `now` that the walk
of the program `p` has made so far. -/
structure Accounts (p now : Program) (e : Env) (log : List Attempt) : Prop where
  below : ∀ i, e.isMarked i = true → i < e.nextNode
  /-- Unless the budget is exhausted, a call is set aside for the number of its arguments. -/
  aside : ∀ d ∈ p.allIds, ∀ h args, .call h args ∈ nodesAll (now.content d) →
    e.isMarked h.id = true → ∀ m, h.template? p.script? = some m →
      args.length = m.params.length → e.budget.exhausted = true
  ids : (log.map fun a => a.head.id).Nodup
  known : ∀ a ∈ log, a.head.id < e.nextNode
  /-- A call on record that is still there is set aside. -/
  gone : ∀ a ∈ log, ∀ d ∈ p.allIds, ∀ h args, .call h args ∈ nodesAll (now.content d) →
    h.id = a.head.id → h.template? p.script? ≠ none → e.isMarked h.id = true

namespace Accounts

theorem of_content {p now now' : Program} {e : Env} {log : List Attempt} (ha : Accounts p now e log)
    (hsame : ∀ c ∈ p.allIds, now'.content c = now.content c) : Accounts p now' e log :=
  { ha with
    aside := fun c hc => hsame c hc ▸ ha.aside c hc
    gone := fun a hmem c hc => hsame c hc ▸ ha.gone a hmem c hc }

end Accounts

/-- The program `now` has become `now'` by an edit of the declaration `d`, where one value has been
replaced by the values `vs` and the state has become `e'`. -/
structure Edited (p now now' : Program) (e e' : Env) (d : DeclId) (spot : Spot) (vs : List Value) :
    Prop where
  ids : now.allIds = p.allIds
  ids' : now'.allIds = p.allIds
  nodup : now.numbers.Nodup
  nodup' : now'.numbers.Nodup
  below : ∀ i ∈ now.numbers, i < e.nextNode
  below' : ∀ i ∈ now'.numbers, i < e'.nextNode
  known : d ∈ p.allIds
  same : ∀ c ∈ p.allIds, d ≠ c → now'.content c = now.content c
  edit : spot.Edit vs d.owner (now.content d) (now'.content d)
  statements : vs.length = 1 ∨ spot.owner.takesStatements = true

namespace Edited

variable {p now now' : Program} {e e' : Env} {log new : List Attempt} {d c : DeclId} {spot : Spot}
  {vs args : List Value} {h : Head}

section

variable (he : Edited p now now' e e' d spot vs)

include he

theorem id_lt (hc : c ∈ p.allIds) (hmem : .call h args ∈ nodesAll (now.content c)) :
    h.id < e.nextNode :=
  he.below _ (mem_flatMap.mpr ⟨c, he.ids ▸ hc, Reply.id_mem_numbers hmem⟩)

/-- A call of the edited program was put in, or it was there before with as many arguments. -/
theorem call_cases (hc : c ∈ p.allIds) (hmem : .call h args ∈ nodesAll (now'.content c)) :
    .call h args ∈ nodesAll vs ∨ ∃ args₀, .call h args₀ ∈ nodesAll (now.content c) ∧
      (args.length = args₀.length ∨ h.template? p.script? = none) := by
  by_cases heq : d = c
  · subst heq
    refine (he.edit.call_cases hmem).imp_right fun ⟨args₀, hmem₀, hlength⟩ => ⟨args₀, hmem₀, ?_⟩
    refine hlength.imp_right fun ⟨hmany, t, hcall⟩ => ?_
    -- the list that has changed its length is that of a block
    have hblock : h.isCallOf "begin" = true := by
      have hstatements := he.statements.resolve_left hmany
      rwa [hcall] at hstatements
    unfold Head.isCallOf at hblock
    unfold Head.template?
    cases hcallee : h.callee with
    | word => rfl
    | script => simp [hcallee] at hblock
  · rw [he.same c hc heq] at hmem
    exact .inr ⟨args, hmem, .inl rfl⟩

theorem put_in (hreply : Reply p.script? spot.focus e vs e' new) (hmem : .call h args ∈ nodesAll vs)
    (hm : h.template? p.script? ≠ none) :
    .call h args ∈ nodesAll (now.content d) ∨ e.nextNode ≤ h.id := by
  rcases hreply.fresh with rfl | hfresh
  · exact .inl (he.edit.nodesAll_subset.1 hmem)
  · exact .inr ((hfresh h args hmem).resolve_right hm)

/-- A call of a macro of the edited program with as many arguments was there before, or it is
new. -/
theorem call_before (hreply : Reply p.script? spot.focus e vs e' new) (hc : c ∈ p.allIds)
    (hmem : .call h args ∈ nodesAll (now'.content c)) (hm : h.template? p.script? ≠ none) :
    (∃ c₀ ∈ p.allIds, ∃ args₀, .call h args₀ ∈ nodesAll (now.content c₀) ∧
      args.length = args₀.length) ∨ e.nextNode ≤ h.id := by
  rcases he.call_cases hc hmem with hmem | ⟨args₀, hmem₀, hlength⟩
  · exact (he.put_in hreply hmem hm).imp_left fun hmem => ⟨d, he.known, args, hmem, rfl⟩
  · exact .inl ⟨c, hc, args₀, hmem₀, hlength.resolve_right hm⟩

/-- The calls that keep the number of the value that was replaced are among those put in. -/
theorem mem_of_id_eq {t : Tag} {h₀ : Head} {args₀ : List Value}
    (hfocus : spot.focus = .call t h₀ args₀) (hc : c ∈ p.allIds)
    (hmem : .call h args ∈ nodesAll (now'.content c)) (hid : h.id = h₀.id) :
    .call h args ∈ nodesAll vs := by
  have hfocusId : h₀.id ∈ Value.numbers [spot.focus] := by
    rw [hfocus]
    simp [Value.numbers_call]
  obtain ⟨others, hold, hnew⟩ := he.edit.numbers_perm
  by_cases heq : d = c
  · subst heq
    rcases mem_append.mp (hnew.mem_iff.mp (Reply.id_mem_numbers hmem)) with hin | hother
    · obtain ⟨K, hK, hnumber⟩ := mem_map.mp hin
      have hd' : d ∈ now'.allIds := he.ids' ▸ hc
      rw [Program.node_eq he.nodup' hd' hd' hmem (he.edit.nodesAll_subset.2 hK) hnumber.symm]
      exact hK
    · have hparts := hold.nodup_iff.mp (Program.numbers_content he.nodup (he.ids ▸ he.known))
      exact absurd rfl ((nodup_append.mp hparts).2.2 _ hfocusId _ (hid ▸ hother))
  · rw [he.same c hc heq] at hmem
    have hin : h₀.id ∈ Value.numbers (now.content d) :=
      hold.mem_iff.mpr (mem_append_left _ hfocusId)
    exact absurd (hid ▸ Reply.id_mem_numbers hmem)
      (Program.numbers_disjoint he.nodup (he.ids ▸ he.known) (he.ids ▸ hc) heq _ hin)

end

end Edited

/-- **An edit keeps the accounts**, with the calls that it tries put on record. -/
theorem Accounts.edit {p now now' : Program} {e e' : Env} {log new : List Attempt} {vs : List Value}
    (ha : Accounts p now e log) (he : Edited p now now' e e' d spot vs)
    (hreply : Reply p.script? spot.focus e vs e' new) :
    Accounts p now' e' (log ++ new) where
  below i hi := by
    rcases hreply.marks i hi with hi | ⟨t, h, args, rfl, rfl, -⟩
    · exact Nat.lt_of_lt_of_le (ha.below i hi) hreply.later.nextNode
    · have hput : Node.call h args ∈ nodesAll (now'.content d) :=
        he.edit.nodesAll_subset.2 (by simp [nodesAll, nodes])
      exact he.below' _
        (mem_flatMap.mpr ⟨d, he.ids' ▸ he.known, Reply.id_mem_numbers hput⟩)
  aside c hc h args hmem hmark m hm hargs := by
    rcases hreply.marks h.id hmark with hold | ⟨t, h₀, args₀, rfl, hid, hx⟩
    · rcases he.call_before hreply hc hmem (by rw [hm]; exact nofun) with
        ⟨c₀, hc₀, args₀, hmem₀, hlength⟩ | hfresh
      · exact hreply.later.exhausted
          (ha.aside c₀ hc₀ h args₀ hmem₀ hold m hm (hlength ▸ hargs))
      · exact absurd (ha.below _ hold) (Nat.not_lt.mpr hfresh)
    · -- the call is the one that was set aside just now
      have hput : Node.call h₀ args₀ ∈ nodesAll (now'.content d) :=
        he.edit.nodesAll_subset.2 (by simp [nodesAll, nodes])
      have hnode : Node.call h args = .call h₀ args₀ :=
        Program.node_eq he.nodup' (he.ids' ▸ hc) (he.ids' ▸ he.known) hmem hput hid
      obtain ⟨rfl, rfl⟩ := Node.call.inj hnode
      exact hx m hm hargs
  ids := by
    rw [map_append]
    refine nodup_append.mpr ⟨ha.ids, hreply.ids, fun i hi j hj heq => ?_⟩
    obtain ⟨a, hmem, rfl⟩ := mem_map.mp hi
    obtain ⟨b, hnew, rfl⟩ := mem_map.mp hj
    rcases hreply.tried b hnew with hfresh | ⟨⟨t, args, hfocus⟩, hm, hmark⟩
    · exact absurd (ha.known a hmem) (Nat.not_lt.mpr (heq ▸ hfresh))
    · have hthere : Node.call b.head args ∈ nodesAll (now.content d) :=
        he.edit.nodesAll_subset.1 (by simp [hfocus, nodesAll, nodes])
      rw [ha.gone a hmem d he.known b.head args hthere heq.symm hm] at hmark
      cases hmark
  known a hmem := by
    rcases mem_append.mp hmem with hmem | hnew
    · exact Nat.lt_of_lt_of_le (ha.known a hmem) hreply.later.nextNode
    · exact hreply.known a hnew
  gone a hmem c hc h args hcall hid hm := by
    rcases mem_append.mp hmem with hmem | hnew
    · rcases he.call_before hreply hc hcall hm with ⟨c₀, hc₀, args₀, hcall₀, -⟩ | hfresh
      · exact hreply.later.marks _ (ha.gone a hmem c₀ hc₀ h args₀ hcall₀ hid hm)
      · exact absurd (ha.known a hmem) (Nat.not_lt.mpr (hid ▸ hfresh))
    · rcases hreply.gone a hnew with hmark | hgone
      · exact hid ▸ hmark
      · refine absurd (hgone h args ?_ hid) hm
        rcases hreply.tried a hnew with hfresh | ⟨⟨t, args₀, hfocus⟩, -⟩
        · rcases he.call_cases hc hcall with hput | ⟨args₀, hcall₀, -⟩
          · exact hput
          · exact absurd (he.id_lt hc hcall₀) (Nat.not_lt.mpr (hid ▸ hfresh))
        · exact he.mem_of_id_eq hfocus hc hcall hid

/-! ## 3. The budget -/

theorem wrongArgumentCount_ne (m : Script) (got : Nat) (limit : Int64) :
    wrongArgumentCount m got ≠ limitExceeded limit := by
  intro h
  have hhead := congrArg List.head? h
  cases hhead

def Attempt.complaint (limit : Int64) (a : Attempt) : Message :=
  ⟨.error, limitExceeded limit, a.head.span, true⟩

/-- **What the record says about the budget.**  The calls are expanded as long as the budget
lasts; the first one after that is reported, and none is expanded any more. -/
structure Ledger (base : Report) (limit : Int64) (e : Env) (log : List Attempt) : Prop where
  bound : e.budget.limit = limit
  left : e.budget.left.toInt = (limit.toNatClampNeg - log.length : Nat)
  exhausted : e.budget.exhausted = true ↔ limit.toNatClampNeg < log.length
  results : ∀ i a, log[i]? = some a → (a.result.isSome = true ↔ i < limit.toNatClampNeg)
  messages : ∃ told, e.report.messages.toList = base.messages.toList ++ told ∧
    told.filter (·.content == limitExceeded limit) =
      log[limit.toNatClampNeg]?.toList.map (Attempt.complaint limit)

namespace Ledger

variable {base : Report} {limit : Int64} {e e' : Env} {log new : List Attempt}

/-- One more result. -/
theorem results_append (hl : Ledger base limit e log) {a : Attempt}
    (ha : a.result.isSome = true ↔ log.length < limit.toNatClampNeg) :
    ∀ i b, (log ++ [a])[i]? = some b → (b.result.isSome = true ↔ i < limit.toNatClampNeg) := by
  intro i b hb
  rcases Nat.lt_or_ge i log.length with hi | hi
  · rw [getElem?_append_left hi] at hb
    exact hl.results i b hb
  · obtain ⟨rfl, rfl⟩ : i = log.length ∧ a = b := by
      rw [getElem?_append_right hi] at hb
      have hzero : i - log.length = 0 := by
        by_contra hne
        rw [getElem?_eq_none (by simpa using Nat.one_le_iff_ne_zero.mpr hne)] at hb
        cases hb
      rw [hzero] at hb
      exact ⟨by omega, Option.some.inj hb⟩
    exact ha

theorem wrong (hl : Ledger base limit e log) (m : Script) (got : Nat) (h : Head) :
    Ledger base limit ((e.mark h.id).tellNode .error h.span (wrongArgumentCount m got)) log := by
  obtain ⟨told, htold, hfilter⟩ := hl.messages
  refine ⟨hl.bound, hl.left, hl.exhausted, hl.results,
    told ++ [⟨.error, wrongArgumentCount m got, h.span, true⟩], ?_, ?_⟩
  · simp [tellNode, mark, Report.tellNode, Report.add, htold]
  · rw [filter_append, hfilter]
    simp [wrongArgumentCount_ne]

variable {a : Attempt}

section

variable (hl : Ledger base limit e log)

include hl

/-- The budget is exhausted, and nothing is complained about any more. -/
theorem refused (hx : e.budget.exhausted = true) (ha : a.result = none) :
    Ledger base limit (e.mark a.head.id) (log ++ [a]) := by
  obtain ⟨told, htold, hfilter⟩ := hl.messages
  have hlt := hl.exhausted.mp hx
  have hleft := hl.left
  refine ⟨hl.bound, ?_, ?_, hl.results_append ?_, told, htold, ?_⟩
  · simp only [mark, length_append, length_singleton]
    omega
  · simp only [mark, length_append, length_singleton, hx, true_iff]
    omega
  · simp only [ha, Option.isSome_none, Bool.false_eq_true, false_iff]
    omega
  · rw [hfilter, getElem?_append_left hlt]

/-- The budget has been spent, and that is complained about. -/
theorem exceeded (hx : e.budget.exhausted = false) (hleft : e.budget.left.toInt < 1)
    (ha : a.result = none) : Ledger base limit
      (mark { e.tellNode .error a.head.span (limitExceeded e.budget.limit) with
        budget := { e.budget with exhausted := true } } a.head.id) (log ++ [a]) := by
  obtain ⟨told, htold, hfilter⟩ := hl.messages
  have hleft' := hl.left
  have hfull : log.length = limit.toNatClampNeg := by
    have hle := mt hl.exhausted.mpr (by rw [hx]; exact Bool.false_ne_true)
    omega
  refine ⟨hl.bound, ?_, ?_, hl.results_append ?_,
    told ++ [⟨.error, limitExceeded e.budget.limit, a.head.span, true⟩], ?_, ?_⟩
  · simp only [mark, length_append, length_singleton]
    omega
  · simp only [mark, length_append, length_singleton, true_iff]
    omega
  · simp only [ha, Option.isSome_none, Bool.false_eq_true, false_iff]
    omega
  · simp [tellNode, mark, Report.tellNode, Report.add, htold]
  · rw [getElem?_eq_none (Nat.le_of_eq hfull)] at hfilter
    rw [filter_append, hfilter, ← hfull, getElem?_append_right (Nat.le_refl _),
      Nat.sub_self, hl.bound]
    simp [Attempt.complaint]

/-- The budget covers the call. -/
theorem expanded (hx : e.budget.exhausted = false) (hleft : 1 ≤ e.budget.left.toInt)
    (ha : a.result.isSome = true) (n : NodeId) :
    Ledger base limit
      { e with budget := { e.budget with left := e.budget.left - 1 }, nextNode := n }
      (log ++ [a]) := by
  obtain ⟨told, htold, hfilter⟩ := hl.messages
  have hleft' := hl.left
  have hlt : log.length < limit.toNatClampNeg := by omega
  refine ⟨hl.bound, ?_, ?_, hl.results_append ?_, told, htold, ?_⟩
  · have hsub : (e.budget.left - 1).toInt = e.budget.left.toInt - 1 :=
      toInt_sub_of_covers (by decide) (Int64.le_iff_toInt_le.mpr hleft)
    simp only [length_append, length_singleton, hsub]
    omega
  · simp only [length_append, length_singleton, hx, Bool.false_eq_true, false_iff]
    omega
  · exact iff_of_true ha hlt
  · rw [hfilter, getElem?_eq_none (Nat.le_of_lt hlt), getElem?_eq_none]
    simp only [length_append, length_singleton]
    omega

/-- **A trial keeps the books.** -/
theorem trial {script? : ScriptId → Option Script} {h : Head} {args : List Value}
    {r : Option (List Value)} (ht : Trial script? h args e r e' new) :
    Ledger base limit e' (log ++ new) := by
  cases ht with
  | other | aside =>
    rw [append_nil]
    exact hl
  | @wrong m =>
    rw [append_nil]
    exact hl.wrong m args.length h
  | @exceeded m e₁ hm hmark hargs hspend =>
    obtain ⟨hx, heq⟩ | ⟨-, -, heq⟩ | ⟨hx, hcovers, heq⟩ := e.spend_cases 1 h.span
    all_goals cases hspend.symm.trans heq
    · exact hl.refused (a := ⟨h, args, none⟩) hx rfl
    · rw [covers_one hx, decide_eq_false_iff_not, Int.not_le] at hcovers
      exact hl.exceeded (a := ⟨h, args, none⟩) hx hcovers rfl
  | @expanded m e₁ vs n hm hmark hargs hspend =>
    obtain ⟨-, heq⟩ | ⟨hx, hcovers, heq⟩ | ⟨-, -, heq⟩ := e.spend_cases 1 h.span
    all_goals cases hspend.symm.trans heq
    rw [covers_one hx, decide_eq_true_iff] at hcovers
    exact hl.expanded (a := ⟨h, args, some vs⟩) hx hcovers rfl n

theorem trials {script? : ScriptId → Option Script} {v v' : Value}
    (ht : Trials script? v e v' e' new) : Ledger base limit e' (log ++ new) := by
  induction ht generalizing log with
  | leaf =>
    rw [append_nil]
    exact hl
  | stays ht => exact hl.trial ht
  | turns ht _ ih =>
    rw [← append_assoc]
    exact ih (hl.trial ht)
  | blocks ht => exact hl.trial ht

/-- The accounts are in order after an element, with the attempts made on it. -/
theorem element (view : View) (place : Place) (v : Value) :
    Ledger base limit (expandElement view place v e).2
      (log ++ attemptsElement view place v e) := by
  unfold expandElement attemptsElement
  cases v with
  | leaf =>
    rw [append_nil]
    exact hl
  | call t h args =>
    have ht := expand?_trial view h args e
    dsimp only
    split
    · rcases hx : expand? view h args e with ⟨_ | vs, e'⟩
      · rw [hx] at ht
        exact hl.trial ht
      · rw [hx] at ht
        exact hl.trial ht
    · rw [append_nil]
      exact hl

end

end Ledger

/-! ## 4. The walk on record -/

/-- What the walk of the program `p` on record keeps. -/
structure Tracks (p : Program) (base : Report) (limit : Int64)
    (s : Standing (Env × List Attempt)) : Prop where
  templates : Templates p s.plain
  renews : Renews p.nextNode s.state.1.nextNode p.numbers s.now.numbers
  accounts : Accounts p s.now s.state.1 s.state.2
  ledger : Ledger base limit s.state.1 s.state.2
  visited : ∀ t h, .call t h ∈ s.visited → h.template? p.script? ≠ none →
    s.state.1.isMarked h.id = true

variable {p : Program} {base : Report} {limit : Int64} {s s' : Standing (Env × List Attempt)}

/-- Before the walk nothing has been tried and the whole budget is left.  The limit has to be one at
least, or the budget would start with another. -/
theorem tracks_start (hp : p.Tidy) (base : Report) (hlimit : 1 ≤ limit) :
    Tracks p base limit (.start p (.fresh p.nextNode base limit, [])) where
  templates := templates_start hp _
  renews := .refl _ _
  accounts := by
    refine ⟨fun i hi => ?_, fun d _ h args _ hi => ?_, nodup_nil,
      fun _ ha => absurd ha not_mem_nil, fun _ ha => absurd ha not_mem_nil⟩
    · simp [Standing.start, fresh, isMarked] at hi
    · simp [Standing.start, fresh, isMarked] at hi
  ledger := by
    have hpositive : 1 ≤ limit.toInt := Int64.le_iff_toInt_le.mp hlimit
    have hsame : Budget.limitOf limit = limit := if_neg fun hle => by
      have hle' : limit.toInt ≤ 0 := Int64.le_iff_toInt_le.mp hle
      omega
    refine ⟨?_, ?_, ?_, fun i a ha => by simp [Standing.start] at ha, [], ?_, ?_⟩
    · exact hsame
    · simp only [Standing.start, fresh, Budget.ofLimit, hsame, length_nil, Nat.sub_zero,
        Int64.toNatClampNeg]
      omega
    · simp [Standing.start, fresh, Budget.ofLimit]
    · simp [Standing.start, fresh]
    · simp [Standing.start]
  visited _ _ hr := absurd hr not_mem_nil

theorem Tracks.numbers (h : Tracks p base limit s) (hp : p.Tidy) (hn : p.Numbered) :
    s.now.numbers.Nodup ∧ ∀ i ∈ s.now.numbers, i < s.state.1.nextNode := by
  obtain ⟨hnodup, hbelow⟩ := hn.numbers hp
  exact ⟨h.renews.nodup hnodup hbelow, h.renews.below hbelow⟩

theorem Tracks.focus (h : Tracks p base limit s) (hp : p.Tidy) (hn : p.Numbered) (hs : s.Orderly p)
    (hd : d ∈ s.opened) {ws vs : List Value} {o : Owner}
    (hedit : spot.Edit ws o (s.now.content d) vs) :
    ∀ i ∈ Value.numbers [spot.focus], i < s.state.1.nextNode := by
  intro i hi
  obtain ⟨K, hK, rfl⟩ := mem_map.mp hi
  refine (h.numbers hp hn).2 _ (mem_flatMap.mpr ⟨d, hs.known_now (hs.opened_known d hd), ?_⟩)
  exact mem_map_of_mem (hedit.nodesAll_subset.1 hK)

/-- An edit of a declaration that the walk has opened. -/
theorem edited_put (hs : s.Orderly p) (hp : p.Tidy) (hd : d ∈ s.opened) {ws vs : List Value}
    (hsuits : Declaration.Suits d vs) (hedit : spot.Edit ws d.owner (s.now.content d) vs)
    (hstatements : ws.length = 1 ∨ spot.owner.takesStatements = true) {e e' : Env}
    (hnumbers : s.now.numbers.Nodup ∧ ∀ i ∈ s.now.numbers, i < e.nextNode)
    (hnumbers' : (s.now.put d vs).numbers.Nodup ∧ ∀ i ∈ (s.now.put d vs).numbers, i < e'.nextNode) :
    Edited p s.now (s.now.put d vs) e e' d spot ws where
  ids := hs.alike.allIds_eq.symm
  ids' := by
    rw [(hs.tidy hp).allIds_put (hs.known_now (hs.opened_known d hd)), hs.alike.allIds_eq]
  nodup := hnumbers.1
  nodup' := hnumbers'.1
  below := hnumbers.2
  below' := hnumbers'.2
  known := hs.opened_known d hd
  same c hc hne := hs.content_put_of_ne hp hd hc hne vs
  edit := by
    rw [hs.content_put_self hp hd hsuits]
    exact hedit
  statements := hstatements

/-- **Every move on record keeps the accounts and the books.** -/
theorem Tracks.move (h : Tracks p base limit s) (hs : s.Orderly p) (hp : p.Tidy) (hn : p.Numbered)
    (hmove : Move (hooks.recorded recorder) s s') : Tracks p base limit s' := by
  have htemplates := h.templates.move hs.plain hp hmove.plain
  have hrenews : Renews p.nextNode s'.state.1.nextNode p.numbers s'.now.numbers :=
    h.renews.trans (hs.plain.renews_move hp (Pass.hooks_renew .macros) hmove.plain)
  have hnumbers' : s'.now.numbers.Nodup ∧ ∀ i ∈ s'.now.numbers, i < s'.state.1.nextNode :=
    ⟨hrenews.nodup (hn.numbers hp).1 (hn.numbers hp).2, hrenews.below (hn.numbers hp).2⟩
  cases hmove with
  | global view g hview hg hunseen =>
    refine ⟨htemplates, hrenews, h.accounts.of_content fun c hc => ?_, h.ledger, h.visited⟩
    exact hs.content_enterGlobal hp hg (hs.unseen_known _ hunseen) hc _
  | script =>
    exact ⟨htemplates, hrenews, h.accounts, h.ledger, h.visited⟩
  | element view d spot vs rest hview hd howner hdue hpending hedit hsuits =>
    have hreply := (expandElement_reply view spot.place spot.focus s.state.1
      (h.focus hp hn hs hd hedit)).congr (h.templates.template?_eq hs.plain hp hview.plain)
    have hedited := edited_put hs hp hd hsuits hedit
      (length_expandElement view spot.place spot.focus s.state.1) (h.numbers hp hn) hnumbers'
    exact ⟨htemplates, hrenews, h.accounts.edit hedited hreply, h.ledger.element _ _ _,
      fun t head hr hm => hreply.later.marks _ (h.visited t head hr hm)⟩
  | value view d spot vs rest hview hd hoffered hdue hpending hedit hsuits =>
    have ht := expandValue_trials view spot.focus s.state.1
    have hsame := h.templates.template?_eq hs.plain hp hview.plain
    have hreply := (ht.reply (h.focus hp hn hs hd hedit)).congr hsame
    have hedited := edited_put hs hp hd hsuits hedit (.inl rfl) (h.numbers hp hn) hnumbers'
    refine ⟨htemplates, hrenews, h.accounts.edit hedited hreply, h.ledger.trials ht,
      fun t head hr hm => ?_⟩
    rcases mem_cons.mp hr with hroot | hr
    · exact ht.isMarked hroot.symm (hsame head ▸ hm)
    · exact hreply.later.marks _ (h.visited t head hr hm)
  | call => exact ⟨htemplates, hrenews, h.accounts, h.ledger, h.visited⟩
  | skip => exact ⟨htemplates, hrenews, h.accounts, h.ledger, h.visited⟩

end Macros

/-! ## 5. Macro expansion -/

namespace Program

open Macros

/-- The calls that macro expansion tries: the calls of macros with the right number of arguments,
in the order in which they are reached. -/
def attempts (p : Program) (before : Report) (limit : Int64) : List Attempt :=
  (p.walk (Macros.hooks.recorded recorder) true (.fresh p.nextNode before limit, [])).2.2

/-- Macro expansion of the program `p` within a limit. -/
structure ExpandsWithin (p : Program) (before : Report) (limit : Int64) : Prop where
  /-- Expansion comes to an end. -/
  ends : ∃ k, (p.moment Macros.hooks (.fresh p.nextNode before limit) k).isOver = true ∧
    (Pass.macros.run p (.fresh p.nextNode before limit)).2 =
      (p.moment Macros.hooks (.fresh p.nextNode before limit) k).state
  /-- The walk that is on record is the expansion. -/
  recorded :
    let out := p.walk (Macros.hooks.recorded recorder) true (.fresh p.nextNode before limit, [])
    Pass.macros.run p (.fresh p.nextNode before limit) =
      ({ out.1 with nextNode := out.2.1.nextNode }, out.2.1)
  /-- No call is tried twice. -/
  distinct : ((p.attempts before limit).map fun a => a.head.id).Nodup
  /-- The calls that are expanded are the first ones, up to the limit. -/
  expanded : (p.attempts before limit).filter (fun a => a.result.isSome) =
    (p.attempts before limit).take limit.toNatClampNeg
  /-- The only complaint about the limit is that about the first call after these. -/
  reported : ∃ told, (Pass.macros.run p (.fresh p.nextNode before limit)).2.report.messages.toList =
      before.messages.toList ++ told ∧
    told.filter (·.content == limitExceeded limit) =
      (p.attempts before limit)[limit.toNatClampNeg]?.toList.map (Attempt.complaint limit)
  /-- If there is no such call, all calls with the right number of arguments are expanded. -/
  complete : (p.attempts before limit).length ≤ limit.toNatClampNeg →
    ∀ d ∈ (Pass.macros.run p (.fresh p.nextNode before limit)).1.declarations, ∀ h args,
      .call h args ∈ nodesAll d.values → ∀ m, h.template? p.script? = some m →
        args.length ≠ m.params.length

/-- **Macros are expanded within the limit.** The numbers of the nodes have to be distinct, because
a call is known by its number; a limit below one would be replaced by the usual one. -/
theorem expandsWithin {p : Program} (hp : p.Tidy) (hn : p.Numbered) (before : Report)
    {limit : Int64} (hlimit : 1 ≤ limit) : p.ExpandsWithin before limit := by
  obtain ⟨s, htracks, hf⟩ := walk_final hp (Macros.hooks.recorded recorder)
    (.fresh p.nextNode before limit, []) (tracks_start hp before hlimit)
    fun s s' hs hq hmove => hq.move hs hp hn hmove
  have hrecorded := walk_recorded p Macros.hooks recorder (.fresh p.nextNode before limit) []
  have hlog : p.attempts before limit = s.state.2 := congrArg Prod.snd hf.state
  have hstate : (Pass.macros.run p (.fresh p.nextNode before limit)).2 = s.state.1 :=
    (congrArg Prod.snd hrecorded).trans (congrArg Prod.fst hf.state)
  obtain ⟨k, hover, hwalk⟩ := walk_eq_moment p Macros.hooks (.fresh p.nextNode before limit)
  refine ⟨⟨k, hover, congrArg Prod.snd hwalk⟩, congrArg (fun out : Program × Env =>
    ({ out.1 with nextNode := out.2.nextNode }, out.2)) hrecorded, ?_, ?_, ?_,
    fun hfew d hd h args hmem => ?_⟩
  · rw [hlog]
    exact htracks.accounts.ids
  · rw [hlog]
    exact filter_eq_take htracks.ledger.results
  · rw [hlog, hstate]
    exact htracks.ledger.messages
  · rw [hlog] at hfew
    change d ∈ (p.walk Macros.hooks true (.fresh p.nextNode before limit)).1.declarations at hd
    rw [hrecorded] at hd
    obtain ⟨hall, hlisted⟩ := (hf.tidy hp).mem_declarations.mp hd
    have hopened := hf.opened hp hlisted
    rw [← content_eq ((hf.tidy hp).declaration?_id hall), hf.content_eq] at hmem
    -- a call of a macro that is left was visited and set aside
    obtain ⟨t, hpart⟩ := Value.call_mem_nodesAll.mp hmem
    have hvisited := hf.covered.mem_visited hf.ended hopened (Value.root_mem_rootsAll hpart)
    intro m hm hargs
    have hmark := htracks.visited t h hvisited (by rw [hm]; exact nofun)
    have hexhausted := htracks.accounts.aside d.id (hf.orderly.opened_known _ hopened) h args hmem
      hmark m hm hargs
    exact absurd (htracks.ledger.exhausted.mp hexhausted) (Nat.not_lt.mpr hfew)

/-- **Macro expansion ends within its budget.**  Whatever is loaded, macros that expand into
themselves included: expansion ends after at most as many expansions as the limit allows; it
complains about the limit at most once, namely about the call of a macro with the right number of
arguments that comes next, and if there is none it leaves no such call. -/
theorem load_expands_within (report before : Report) (lib : Library) (entry : Entry)
    (limit : Int64) (hlimit : 1 ≤ limit) :
    (load {} report lib entry).program.ExpandsWithin before limit :=
  expandsWithin (load_tidy tidy_empty report lib entry)
    (loaded_numbered report lib entry) before hlimit

/-- A macro that expands into itself twice. -/
def selfSample : Entry := .source ⟨"a", "(script macro s m()(begin(m)(m)))(script startup f(m))"⟩

theorem load_expands_within_selfSample :
    (1 : Int64) ≤ 2 ∧ (load {} {} {} selfSample).program.ExpandsWithin {} 2 :=
  ⟨by decide, load_expands_within {} {} {} selfSample 2 (by decide)⟩

end Program

end HaloScript
