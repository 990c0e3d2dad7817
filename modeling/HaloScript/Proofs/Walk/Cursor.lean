/-
# Going through a linked list that is edited on the way

Bodies and argument lists can be kept in linked lists.  A cursor points at an element; from there
one gets to the next one, puts a value right behind it or takes it out (`LinkedList`).  What is
assumed of these operations is said of the order in which the elements stand
(`LinkedList.Lawful`).

`LinkedList.Sweep` is the loop that goes through a list with a cursor.  Every element is offered to
a hook, which sees the whole list and whatever else there is, and has values put behind the
element.  If it wants the element out, the next cursor is read first, since an element that is out
has none.  Otherwise the value is visited, and the next cursor is read only then.

The loop does what a recursion over values does that knows nothing of cursors (`Process`): what is
inserted comes in front of the others, and nothing is left out or comes twice
(`LinkedList.sweep_iff_process`).  Of hooks and visits nothing is assumed but that their only way to
change this list is the one they are given.  What a visit does may depend on the visits before; one
that has seen the value already may do nothing.
-/
import Mathlib.Data.List.Basic
import Mathlib.Logic.Function.Basic

namespace HaloScript

open List

/-! ## 1. Linked lists -/

/-- A kind of linked lists, as far as a walk makes use of them. -/
structure LinkedList (α : Type) where
  Lists : Type
  Cursor : Type
  /-- The elements, the first one first. -/
  cursors : Lists → List Cursor
  value : Lists → Cursor → α
  front? : Lists → Option Cursor
  next? : Lists → Cursor → Option Cursor
  /-- Puts a value behind an element, and tells where it is. -/
  insertAfter : Lists → Cursor → α → Cursor × Lists
  remove : Lists → Cursor → Lists
  /-- Gives an element another value. -/
  set : Lists → Cursor → α → Lists

namespace LinkedList

variable {α : Type}

/-- What the operations are taken to do to an element, to those in front of it and to those behind
it. -/
structure Lawful (L : LinkedList α) : Prop where
  nodup : ∀ l, (L.cursors l).Nodup
  front?_eq : ∀ l, L.front? l = (L.cursors l).head?
  next?_eq : ∀ {l before c after}, L.cursors l = before ++ c :: after → L.next? l c = after.head?
  cursors_insertAfter : ∀ {l before c after}, L.cursors l = before ++ c :: after → ∀ v,
    L.cursors (L.insertAfter l c v).2 = before ++ c :: (L.insertAfter l c v).1 :: after
  value_inserted : ∀ {l c}, c ∈ L.cursors l → ∀ v,
    L.value (L.insertAfter l c v).2 (L.insertAfter l c v).1 = v
  value_insertAfter : ∀ {l c}, c ∈ L.cursors l → ∀ {e}, e ∈ L.cursors l → ∀ v,
    L.value (L.insertAfter l c v).2 e = L.value l e
  cursors_remove : ∀ {l before c after}, L.cursors l = before ++ c :: after →
    L.cursors (L.remove l c) = before ++ after
  value_remove : ∀ {l c}, c ∈ L.cursors l → ∀ {e}, e ≠ c → L.value (L.remove l c) e = L.value l e
  cursors_set : ∀ {l c}, c ∈ L.cursors l → ∀ v, L.cursors (L.set l c v) = L.cursors l
  value_set_self : ∀ {l c}, c ∈ L.cursors l → ∀ v, L.value (L.set l c v) c = v
  value_set : ∀ {l c}, c ∈ L.cursors l → ∀ {e}, e ≠ c → ∀ v,
    L.value (L.set l c v) e = L.value l e

def read (L : LinkedList α) (l : L.Lists) (cs : List L.Cursor) : List α := cs.map (L.value l)

theorem read_cons (L : LinkedList α) (l : L.Lists) (c : L.Cursor) (cs : List L.Cursor) :
    L.read l (c :: cs) = L.value l c :: L.read l cs := rfl

theorem read_concat (L : LinkedList α) (l : L.Lists) (cs : List L.Cursor) (c : L.Cursor) :
    L.read l (cs ++ [c]) = L.read l cs ++ [L.value l c] := map_append

/-- Puts values behind an element, each one behind the one before, and tells where they are. -/
def splice (L : LinkedList α) (l : L.Lists) (c : L.Cursor) : List α → List L.Cursor × L.Lists
  | [] => ([], l)
  | v :: vs =>
    let (c, l) := L.insertAfter l c v
    let (cs, l) := L.splice l c vs
    (c :: cs, l)

namespace Lawful

variable {L : LinkedList α} (hL : L.Lawful) {l : L.Lists} {before after : List L.Cursor}
  {c : L.Cursor} (hl : L.cursors l = before ++ c :: after)

include hL

/-- **Splicing** leaves the other elements as they are. -/
theorem splice {l : L.Lists} {before : List L.Cursor} {c : L.Cursor}
    (hl : L.cursors l = before ++ c :: after) (vs : List α) :
    L.cursors (L.splice l c vs).2 = before ++ c :: ((L.splice l c vs).1 ++ after) ∧
      L.read (L.splice l c vs).2 (L.splice l c vs).1 = vs ∧
      ∀ e ∈ L.cursors l, L.value (L.splice l c vs).2 e = L.value l e := by
  induction vs generalizing l before c with
  | nil => exact ⟨hl, rfl, fun _ _ => rfl⟩
  | cons v vs ih =>
    have hc : c ∈ L.cursors l := by simp [hl]
    have hinsert := hL.cursors_insertAfter hl v
    have hkept : ∀ e ∈ L.cursors l, e ∈ L.cursors (L.insertAfter l c v).2 := by
      intro e he
      simp only [hl, hinsert, mem_append, mem_cons] at he ⊢
      tauto
    -- the rest goes behind the value that was inserted last
    obtain ⟨hcursors, hvalues, hothers⟩ := ih (hinsert.trans (append_cons before c _))
    rw [LinkedList.splice]
    refine ⟨?_, ?_, fun e he => ?_⟩
    · rw [hcursors, append_assoc]
      rfl
    · rw [read_cons, hvalues, hothers _ (by simp [hinsert]), hL.value_inserted hc]
    · rw [hothers e (hkept e he), hL.value_insertAfter hc he]

include hl

/-- An element stands neither in front of itself nor behind. -/
theorem ne_of_around : (∀ e ∈ before, e ≠ c) ∧ ∀ e ∈ after, e ≠ c := by
  have hnodup := hL.nodup l
  rw [hl, nodup_append, nodup_cons] at hnodup
  refine ⟨fun e he => hnodup.2.2 e he c mem_cons_self, fun e he heq => ?_⟩
  exact hnodup.2.1.1 (heq ▸ he)

/-- Giving an element another value changes no other. -/
theorem read_set (v : α) : L.cursors (L.set l c v) = before ++ c :: after ∧
    L.value (L.set l c v) c = v ∧ L.read (L.set l c v) before = L.read l before ∧
    L.read (L.set l c v) after = L.read l after := by
  have hc : c ∈ L.cursors l := by simp [hl]
  obtain ⟨hbefore, hafter⟩ := hL.ne_of_around hl
  exact ⟨(hL.cursors_set hc v).trans hl, hL.value_set_self hc v,
    map_congr_left fun e he => hL.value_set hc (hbefore e he) v,
    map_congr_left fun e he => hL.value_set hc (hafter e he) v⟩

/-- What is there after some values were put behind an element. -/
theorem read_splice (vs : List α) :
    L.value (L.splice l c vs).2 c = L.value l c ∧
      L.read (L.splice l c vs).2 before = L.read l before ∧
      L.read (L.splice l c vs).2 ((L.splice l c vs).1 ++ after) = vs ++ L.read l after := by
  obtain ⟨-, hvalues, hothers⟩ := hL.splice hl vs
  refine ⟨hothers c (by simp [hl]), map_congr_left fun e he => hothers e (by simp [hl, he]), ?_⟩
  rw [read, map_append, ← read, hvalues]
  exact congrArg _ (map_congr_left fun e he => hothers e (by simp [hl, he]))

/-- What is there after an element was taken out. -/
theorem read_remove : L.cursors (L.remove l c) = before ++ after ∧
    L.read (L.remove l c) before = L.read l before ∧
    L.read (L.remove l c) after = L.read l after := by
  have hc : c ∈ L.cursors l := by simp [hl]
  obtain ⟨hbefore, hafter⟩ := hL.ne_of_around hl
  exact ⟨hL.cursors_remove hl, map_congr_left fun e he => hL.value_remove hc (hbefore e he),
    map_congr_left fun e he => hL.value_remove hc (hafter e he)⟩

end Lawful

/-! ## 2. The loop -/

/-- What a hook makes of an element. -/
inductive Reply (α : Type) where
  /-- It goes, and the values are put behind it before. -/
  | drop (inserted : List α)
  /-- It stays, with this value, and the values are put behind it. -/
  | keep (value : α) (inserted : List α)

end LinkedList

/-- Something that is done at a place in a list: there are the values in front of it, the nearest
one first, the value that is there, those behind it, and all that is not in the list as a world of
its own.  It ends with a result and a world.  It is a relation, since it need not come to an end and
need not do the same each time. -/
abbrev Act (α ω β : Type) := List α → α → List α → ω → β → ω → Prop

/-- One round of a loop or of a recursion over a list. -/
structure Turn (α : Type) where
  /-- The value that is offered. -/
  element : α
  inserted : List α
  /-- What its visit makes of the value, if it stays. -/
  left : Option α

namespace LinkedList

variable {ω β : Type}

def toList (L : LinkedList α) (l : L.Lists) : List α := L.read l (L.cursors l)

def act (L : LinkedList α) (f : Act α ω β) (c : L.Cursor) (l : L.Lists) (w : ω) (r : β) (w' : ω) :
    Prop :=
  ∃ before after, L.cursors l = before ++ c :: after ∧
    f (L.read l before).reverse (L.value l c) (L.read l after) w r w'

/-- **The loop**, from a cursor on.  If an element goes, the next cursor is read from the list that
still has it; if it stays, the next one is read when its visit is over. -/
inductive Sweep (L : LinkedList α) (hook : Act α ω (Reply α)) (visit : Act α ω α) :
    Option L.Cursor → L.Lists → ω → List (Turn α) → L.Lists → ω → Prop
  | stop (l : L.Lists) (w : ω) : Sweep L hook visit none l w [] l w
  | drop {c : L.Cursor} {l l₁ l' : L.Lists} {w w₁ w' : ω} {vs : List α} {turns : List (Turn α)}
      (hhook : L.act hook c l w (.drop vs) w₁) (hsplice : (L.splice l c vs).2 = l₁)
      (hrest : Sweep L hook visit (L.next? l₁ c) (L.remove l₁ c) w₁ turns l' w') :
      Sweep L hook visit (some c) l w (⟨L.value l c, vs, none⟩ :: turns) l' w'
  | keep {c : L.Cursor} {l l₁ l₂ l' : L.Lists} {w w₁ w₂ w' : ω} {v v' : α} {vs : List α}
      {turns : List (Turn α)} (hhook : L.act hook c l w (.keep v vs) w₁)
      (hsplice : (L.splice (L.set l c v) c vs).2 = l₁) (hvisit : L.act visit c l₁ w₁ v' w₂)
      (hset : L.set l₁ c v' = l₂)
      (hrest : Sweep L hook visit (L.next? l₂ c) l₂ w₂ turns l' w') :
      Sweep L hook visit (some c) l w (⟨L.value l c, vs, some v'⟩ :: turns) l' w'

end LinkedList

open LinkedList (Reply)

/-- **The recursion** over a list whose first values are done with.  The first of the others is
offered, and what is inserted comes in front of the rest.  If it goes, the recursion goes on there;
if it stays, it is visited before, and is part of what is left. -/
inductive Process {ω : Type} (hook : Act α ω (Reply α)) (visit : Act α ω α) :
    List α → List α → ω → List (Turn α) → List α → ω → Prop
  | nil (done : List α) (w : ω) : Process hook visit done [] w [] [] w
  | drop {done rest vs out : List α} {v : α} {w w₁ w' : ω} {turns : List (Turn α)}
      (hhook : hook done v rest w (.drop vs) w₁)
      (hrest : Process hook visit done (vs ++ rest) w₁ turns out w') :
      Process hook visit done (v :: rest) w (⟨v, vs, none⟩ :: turns) out w'
  | keep {done rest vs out : List α} {v v₁ v' : α} {w w₁ w₂ w' : ω} {turns : List (Turn α)}
      (hhook : hook done v rest w (.keep v₁ vs) w₁)
      (hvisit : visit done v₁ (vs ++ rest) w₁ v' w₂)
      (hrest : Process hook visit (v' :: done) (vs ++ rest) w₂ turns out w') :
      Process hook visit done (v :: rest) w (⟨v, vs, some v'⟩ :: turns) (v' :: out) w'

namespace Process

variable {ω : Type} {hook : Act α ω (Reply α)} {visit : Act α ω α} {done todo out : List α}
  {w w' : ω} {turns : List (Turn α)}

/-- **Every value is offered once**, be it from the list or inserted. -/
theorem perm (hp : Process hook visit done todo w turns out w') :
    (turns.map Turn.element).Perm (todo ++ turns.flatMap Turn.inserted) := by
  have hnext : ∀ vs rest xs : List α, (vs ++ rest ++ xs).Perm (rest ++ (vs ++ xs)) :=
    fun vs rest xs => (perm_append_comm.append_right xs).trans (.of_eq (append_assoc _ _ _))
  induction hp with
  | nil => exact .refl _
  | drop hhook hrest ih => exact (ih.trans (hnext _ _ _)).cons _
  | keep hhook hvisit hrest ih => exact (ih.trans (hnext _ _ _)).cons _

/-- What is left are the values that stay, as their visits leave them. -/
theorem out_eq (hp : Process hook visit done todo w turns out w') :
    out = turns.filterMap Turn.left := by
  induction hp with
  | nil => rfl
  | drop hhook hrest ih => exact ih
  | keep hhook hvisit hrest ih => exact congrArg _ ih

/-- If hooks and visits leave no choice, neither does the recursion. -/
theorem unique {w₁ w₂ : ω} {turns' : List (Turn α)} {out' : List α}
    (hhook : ∀ {done v rest w r w' r' w''}, hook done v rest w r w' → hook done v rest w r' w'' →
      r' = r ∧ w'' = w')
    (hvisit : ∀ {done v rest w v' w' v'' w''}, visit done v rest w v' w' →
      visit done v rest w v'' w'' → v'' = v' ∧ w'' = w')
    (hp : Process hook visit done todo w turns out w₁)
    (hp' : Process hook visit done todo w turns' out' w₂) :
    turns' = turns ∧ out' = out ∧ w₂ = w₁ := by
  induction hp generalizing turns' out' with
  | nil =>
    cases hp'
    exact ⟨rfl, rfl, rfl⟩
  | drop h hrest ih =>
    cases hp' with
    | drop h' hrest' =>
      obtain ⟨⟨⟩, rfl⟩ := hhook h h'
      obtain ⟨rfl, rfl, rfl⟩ := ih hrest'
      exact ⟨rfl, rfl, rfl⟩
    | keep h' => cases (hhook h h').1
  | keep h hv hrest ih =>
    cases hp' with
    | drop h' => cases (hhook h h').1
    | keep h' hv' hrest' =>
      obtain ⟨⟨⟩, rfl⟩ := hhook h h'
      obtain ⟨rfl, rfl⟩ := hvisit hv hv'
      obtain ⟨rfl, rfl, rfl⟩ := ih hrest'
      exact ⟨rfl, rfl, rfl⟩

end Process

/-! ## 3. The loop is the recursion -/

namespace LinkedList

section

variable {ω β : Type} {L : LinkedList α} (hL : L.Lawful) {hook : Act α ω (Reply α)}
  {visit : Act α ω α} {l l' : L.Lists} {before after : List L.Cursor} {c : L.Cursor} {w w' : ω}
  {turns : List (Turn α)}

include hL

/-- There is one place at which a cursor points. -/
theorem Lawful.act_iff (hl : L.cursors l = before ++ c :: after) (f : Act α ω β) (r : β) :
    L.act f c l w r w' ↔ f (L.read l before).reverse (L.value l c) (L.read l after) w r w' := by
  constructor
  · rintro ⟨before', after', hl', hf⟩
    obtain ⟨hbefore, hafter⟩ := hL.ne_of_around hl'
    obtain ⟨rfl, -, rfl⟩ := (append_cons_inj_of_notMem (fun hc => hbefore c hc rfl)
      fun hc => hafter c hc rfl).mp (hl'.symm.trans hl)
    exact hf
  · exact fun hf => ⟨before, after, hl, hf⟩

/-- **A round that drops an element** leaves the cursor at the first of what is inserted and was
behind the element. -/
theorem Lawful.drop (hl : L.cursors l = before ++ c :: after) (vs : List α) :
    ∃ after', L.cursors (L.remove (L.splice l c vs).2 c) = before ++ after' ∧
      L.next? (L.splice l c vs).2 c = after'.head? ∧
      L.read (L.remove (L.splice l c vs).2 c) before = L.read l before ∧
      L.read (L.remove (L.splice l c vs).2 c) after' = vs ++ L.read l after := by
  have hsplice := (hL.splice hl vs).1
  obtain ⟨-, hbefore, hafter⟩ := hL.read_splice hl vs
  obtain ⟨hremove, hbefore', hafter'⟩ := hL.read_remove hsplice
  exact ⟨_, hremove, hL.next?_eq hsplice, hbefore'.trans hbefore, hafter'.trans hafter⟩

/-- **A round that keeps an element** has what is inserted behind it when it is visited. -/
theorem Lawful.keep (hl : L.cursors l = before ++ c :: after) (v : α) (vs : List α) :
    ∃ after', L.cursors (L.splice (L.set l c v) c vs).2 = before ++ c :: after' ∧
      L.value (L.splice (L.set l c v) c vs).2 c = v ∧
      L.read (L.splice (L.set l c v) c vs).2 before = L.read l before ∧
      L.read (L.splice (L.set l c v) c vs).2 after' = vs ++ L.read l after := by
  obtain ⟨hset, hv, hbefore, hafter⟩ := hL.read_set hl v
  obtain ⟨hv', hbefore', hafter'⟩ := hL.read_splice hset vs
  exact ⟨_, (hL.splice hset vs).1, hv'.trans hv, hbefore'.trans hbefore,
    hafter'.trans (hafter ▸ rfl)⟩

/-- **A run of the loop** is one of the recursion.  The elements in front of the cursor stay as they
are. -/
theorem Sweep.process {cursor : Option L.Cursor}
    (h : L.Sweep hook visit cursor l w turns l' w') (hl : L.cursors l = before ++ after)
    (hcursor : cursor = after.head?) :
    ∃ out, L.cursors l' = before ++ out ∧ L.read l' before = L.read l before ∧
      Process hook visit (L.read l before).reverse (L.read l after) w turns (L.read l' out) w' := by
  induction h generalizing before after with
  | stop =>
    obtain rfl : after = [] := head?_eq_none_iff.mp hcursor.symm
    exact ⟨[], hl, rfl, .nil _ _⟩
  | drop hhook hsplice hrest ih =>
    obtain ⟨rest, rfl⟩ := head?_eq_some_iff.mp hcursor.symm
    subst hsplice
    rw [hL.act_iff hl] at hhook
    obtain ⟨after', hcursors, hnext, hbefore, hafter⟩ := hL.drop hl _
    obtain ⟨out, hout, hread, hp⟩ := ih hcursors hnext
    rw [hbefore] at hread hp
    rw [hafter] at hp
    exact ⟨out, hout, hread, .drop hhook hp⟩
  | @keep c l l₁ l₂ l' w w₁ w₂ w' v v' vs turns hhook hsplice hvisit hset hrest ih =>
    obtain ⟨rest, rfl⟩ := head?_eq_some_iff.mp hcursor.symm
    subst hsplice hset
    rw [hL.act_iff hl] at hhook
    obtain ⟨after', hcursors, hv, hbefore, hafter⟩ := hL.keep hl v vs
    rw [hL.act_iff hcursors, hv, hbefore, hafter] at hvisit
    -- from here on the element is one of those in front
    obtain ⟨hset, hv', hbefore', hafter'⟩ := hL.read_set hcursors v'
    obtain ⟨out, hout, hread, hp⟩ :=
      ih (hset.trans (append_cons before c after')) (hL.next?_eq hset)
    rw [read_concat, read_concat, hv', hbefore', hbefore] at hread
    rw [read_concat, hv', hbefore', hbefore, hafter', hafter, reverse_concat] at hp
    obtain ⟨hread, hc⟩ := append_inj' hread rfl
    refine ⟨c :: out, by rw [hout, append_assoc]; rfl, hread, ?_⟩
    rw [read_cons L l', head_eq_of_cons_eq hc]
    exact .keep hhook hvisit hp

/-- **A run of the recursion** is one of the loop. -/
theorem Process.sweep {done todo out : List α} (hp : Process hook visit done todo w turns out w')
    (hl : L.cursors l = before ++ after) (hdone : done = (L.read l before).reverse)
    (htodo : todo = L.read l after) : ∃ l', L.Sweep hook visit after.head? l w turns l' w' := by
  induction hp generalizing l before after with
  | nil =>
    obtain rfl : after = [] := map_eq_nil_iff.mp htodo.symm
    exact ⟨l, .stop l _⟩
  | drop hhook hrest ih =>
    obtain ⟨c, rest, rfl, rfl, rfl⟩ := map_eq_cons_iff.mp htodo.symm
    subst hdone
    obtain ⟨after', hcursors, hnext, hbefore, hafter⟩ := hL.drop hl _
    obtain ⟨l', h⟩ := ih hcursors (by rw [hbefore]) hafter.symm
    exact ⟨l', .drop ((hL.act_iff hl ..).mpr hhook) rfl (hnext ▸ h)⟩
  | @keep done rest vs out v v₁ v' w w₁ w₂ w' turns hhook hvisit hrest ih =>
    obtain ⟨c, rest, rfl, rfl, rfl⟩ := map_eq_cons_iff.mp htodo.symm
    subst hdone
    obtain ⟨after', hcursors, hv, hbefore, hafter⟩ := hL.keep hl v₁ vs
    obtain ⟨hset, hv', hbefore', hafter'⟩ := hL.read_set hcursors v'
    obtain ⟨l', h⟩ := ih (hset.trans (append_cons before c after'))
      (by rw [read_concat, hv', hbefore', hbefore, reverse_concat]) (by rw [hafter', hafter]; rfl)
    rw [← hL.next?_eq hset] at h
    refine ⟨l', .keep ((hL.act_iff hl ..).mpr hhook) rfl ((hL.act_iff hcursors ..).mpr ?_) rfl h⟩
    rwa [hv, hbefore, hafter]

/-- **The loop over a list is the recursion**: they have the same runs, that end in the same world
and leave the same values. -/
theorem sweep_iff_process {out : List α} :
    (∃ l', L.Sweep hook visit (L.front? l) l w turns l' w' ∧ L.toList l' = out) ↔
      Process hook visit [] (L.toList l) w turns out w' := by
  rw [hL.front?_eq]
  constructor
  · rintro ⟨l', h, rfl⟩
    obtain ⟨out, hout, -, hp⟩ := h.process hL (nil_append _).symm rfl
    rw [toList, toList, hout]
    exact hp
  · intro hp
    obtain ⟨l', h⟩ := Process.sweep hL hp (nil_append _).symm rfl rfl
    obtain ⟨out', hout, -, hp'⟩ := h.process hL (nil_append _).symm rfl
    exact ⟨l', h, by rw [toList, hout, hp.out_eq, nil_append, hp'.out_eq]⟩

end

end LinkedList

/-! ## 4. Lists that do it -/

namespace LinkedList

/-- Elements are numbers, given out one after another.  They stand in an order, and each one has a
value. -/
structure Chain (α : Type) where
  order : List Nat
  values : Nat → α
  limit : Nat
  nodup : order.Nodup
  lt_limit : ∀ c ∈ order, c < limit

namespace Chain

/-- Puts a number right behind another one. -/
def behind (c n : Nat) : List Nat → List Nat
  | [] => []
  | e :: rest => if e = c then e :: n :: rest else e :: behind c n rest

variable {c n : Nat} {cs : List Nat}

theorem mem_of_mem_behind {e : Nat} (he : e ∈ behind c n cs) : e = n ∨ e ∈ cs := by
  induction cs with
  | nil => cases he
  | cons e' cs ih =>
    rw [behind] at he
    split at he
    · simp only [mem_cons] at he ⊢
      tauto
    · rcases mem_cons.mp he with rfl | he
      · exact .inr mem_cons_self
      · exact (ih he).imp_right (mem_cons_of_mem _)

theorem nodup_behind (hcs : cs.Nodup) (hn : n ∉ cs) : (behind c n cs).Nodup := by
  induction cs with
  | nil => exact hcs
  | cons e cs ih =>
    obtain ⟨hne, hn⟩ := not_or.mp (mt mem_cons.mpr hn)
    obtain ⟨he, hcs⟩ := nodup_cons.mp hcs
    rw [behind]
    split
    · exact nodup_cons.mpr ⟨by simp [he, Ne.symm hne], nodup_cons.mpr ⟨hn, hcs⟩⟩
    · refine nodup_cons.mpr ⟨fun hmem => ?_, ih hcs hn⟩
      exact (mem_of_mem_behind hmem).elim (fun h => hne h.symm) he

def lists (α : Type) : LinkedList α where
  Lists := Chain α
  Cursor := Nat
  cursors l := l.order
  value l := l.values
  front? l := l.order.head?
  next? l c := (l.order.dropWhile (· != c)).tail.head?
  insertAfter l c v := (l.limit,
    { order := behind c l.limit l.order
      values := Function.update l.values l.limit v
      limit := l.limit + 1
      nodup := nodup_behind l.nodup fun h => Nat.lt_irrefl _ (l.lt_limit _ h)
      lt_limit := fun e he => by
        rcases mem_of_mem_behind he with rfl | he
        · exact Nat.lt_succ_self _
        · exact Nat.lt_succ_of_lt (l.lt_limit e he) })
  remove l c := { l with
    order := l.order.erase c
    nodup := l.nodup.erase c
    lt_limit := fun e he => l.lt_limit e (mem_of_mem_erase he) }
  set l c v := { l with values := Function.update l.values c v }

/-- An element is found behind all those in front of it. -/
theorem order_around {before after : List Nat} (hnodup : cs.Nodup)
    (hcs : cs = before ++ c :: after) (n : Nat) :
    (cs.dropWhile (· != c)).tail = after ∧ behind c n cs = before ++ c :: n :: after ∧
      cs.erase c = before ++ after := by
  subst hcs
  induction before with
  | nil => simp [behind]
  | cons e before ih =>
    obtain ⟨he, hnodup⟩ := nodup_cons.mp hnodup
    have hne : e ≠ c := fun heq => he (heq ▸ mem_append_right _ mem_cons_self)
    obtain ⟨hnext, hinsert, hremove⟩ := ih hnodup
    simp [behind, hne, hnext, hinsert, hremove]

theorem lists_lawful (α : Type) : (lists α).Lawful where
  nodup := Chain.nodup
  front?_eq _ := rfl
  next?_eq {l _ _ _} h := congrArg head? (order_around l.nodup h 0).1
  cursors_insertAfter {l _ _ _} h _ := (order_around l.nodup h l.limit).2.1
  value_inserted _ _ := Function.update_self ..
  value_insertAfter {l _} _ {e} he _ := Function.update_of_ne (Nat.ne_of_lt (l.lt_limit e he)) ..
  cursors_remove {l _ _ _} h := (order_around l.nodup h 0).2.2
  value_remove _ _ _ := rfl
  cursors_set _ _ := rfl
  value_set_self _ _ := Function.update_self ..
  value_set _ _ hne _ := Function.update_of_ne (α := Nat) hne ..

end Chain

end LinkedList

end HaloScript
