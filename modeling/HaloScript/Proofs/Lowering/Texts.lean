/-
# Lowering keeps texts readable

Every text of a loaded program comes from a file, so the printer can write it in a way the
scanner understands (`Text.Readable`).  Lowering puts in copies of what is there, and literals of
constants, which are words.  So the texts of a lowered program are readable as well, whatever
steps were selected (`Program.lower_legible`).
-/
import HaloScript.Proofs.Lowering.Again
import HaloScript.Proofs.Lowering.ConstGlobals
import HaloScript.Proofs.Scanning.Atoms

namespace HaloScript

open List Text

variable {leafOk : Leaf → Prop}

/-! ## 1. Literals are words -/

namespace Text

/-- A text that is written without quotes. -/
def IsWord (t : Text) : Prop := t ≠ [] ∧ ∀ b ∈ t, IsWordByte b

instance (b : UInt8) : Decidable (IsSeparator b) := inferInstanceAs
  (Decidable (b = semicolon ∨ b = space ∨ b = tab ∨ b = openBracket ∨ b = closeBracket))

instance (b : UInt8) : Decidable (IsWordByte b) := inferInstanceAs
  (Decidable (¬ IsSeparator b ∧ b ≠ newline ∧ b ≠ carriageReturn))

instance (t : Text) : Decidable t.IsWord :=
  decidable_of_iff (t ≠ [] ∧ t.all (fun b => decide (IsWordByte b)) = true) (by simp [IsWord])

theorem IsWord.readable {t : Text} (h : t.IsWord) : t.Readable := readable_word h.1 h.2

theorem IsWord.append {t u : Text} (ht : t.IsWord) (hu : ∀ b ∈ u, IsWordByte b) :
    (t ++ u).IsWord := by
  refine ⟨by simp [ht.1], fun b hb => ?_⟩
  rcases mem_append.mp hb with hb | hb
  · exact ht.2 b hb
  · exact hu b hb

theorem isWordByte_digit {n : Nat} (h : n < 10) : IsWordByte (digit n) := by
  have hcases : ∀ k : Fin 10, IsWordByte (digit k.val) := by decide
  exact hcases ⟨n, h⟩

theorem isWord_ofNat (n : Nat) : (ofNat n).IsWord := by
  induction n using Nat.strongRecOn with
  | ind n ih =>
    unfold ofNat
    split
    · next h => exact ⟨by simp, by simpa using isWordByte_digit h⟩
    · next h =>
      refine (ih (n / 10) (by omega)).append ?_
      simpa using isWordByte_digit (Nat.mod_lt n (by omega))

theorem isWord_ofInt (n : Int) : (ofInt n).IsWord := by
  cases n with
  | ofNat n => exact isWord_ofNat n
  | negSucc n =>
    have hminus : IsWord [minus] := by decide
    exact hminus.append (isWord_ofNat (n + 1)).2

theorem isWordByte_repeated {n : Nat} {c : UInt8} (hc : IsWordByte c) :
    ∀ b ∈ repeated n c, IsWordByte b := by
  intro b hb
  rw [eq_of_mem_replicate hb]
  exact hc

end Text

namespace Single

theorem isWord_positional (m : Nat) (k : Int) : (positional m k).IsWord := by
  have hzero : IsWordByte 0x30 := by decide
  unfold positional
  dsimp only
  split
  · exact (isWord_ofNat m).append (isWordByte_repeated hzero)
  · have hdot : IsWord "." := by decide
    generalize hdigits : repeated _ _ ++ ofNat m = digits
    have hword : ∀ b ∈ digits, IsWordByte b := by
      rw [← hdigits]
      intro b hb
      rcases mem_append.mp hb with hb | hb
      · exact isWordByte_repeated hzero b hb
      · exact (isWord_ofNat m).2 b hb
    refine ⟨by simp [hdot.1], fun b hb => ?_⟩
    rcases mem_append.mp hb with hb | hb
    · rcases mem_append.mp hb with hb | hb
      · exact hword b (mem_of_mem_take hb)
      · exact hdot.2 b hb
    · exact hword b (mem_of_mem_drop hb)

theorem isWord_render {x : Single} (h : x.isFinite = true) : x.render.IsWord := by
  cases x with
  | nan => simp [isFinite] at h
  | infinite => simp [isFinite] at h
  | finite negative units =>
    have hzero : IsWord "0" := by decide
    have hminus : IsWord "-" := by decide
    have hmagnitude : IsWord (if units = 0 then ("0" : Text)
        else positional (shortest units).1 (shortest units).2) := by
      split
      · exact hzero
      · exact isWord_positional _ _
    unfold render
    dsimp only
    split
    · exact hminus.append hmagnitude.2
    · exact hmagnitude

end Single

/-! ## 2. Programs of readable texts -/

/-- The text of a leaf can be read. -/
def Leaf.Legible (l : Leaf) : Prop := ∀ t, l.text? = some t → t.Readable

def Callee.Legible : CallCondition := fun c _ => c.name.Readable

theorem Leaf.legible_atom {t : Text} (h : t.Readable) : (Leaf.atom t).Legible := by
  intro u hu
  obtain rfl : t = u := by simpa [Leaf.text?] using hu
  exact h

theorem Leaf.legible_writable : Leaf.Writable Leaf.Legible where
  int n := legible_atom (isWord_ofInt n).readable
  real _ h := legible_atom (Single.isWord_render h).readable
  bool b := by
    have htrue : IsWord "true" := by decide
    have hfalse : IsWord "false" := by decide
    cases b with
    | true => exact legible_atom htrue.readable
    | false => exact legible_atom hfalse.readable
  script s h := legible_atom (h s.name rfl)

theorem Callee.legible_begin : Callee.Legible (.word "begin" none) false := by
  have hword : IsWord "begin" := by decide
  exact hword.readable

namespace Program

/-- Every text of every declaration can be read. -/
structure Legible (p : Program) : Prop where
  heading : ∀ d ∈ p.all, ∀ t ∈ d.heading, t.Readable
  values : ∀ d ∈ p.all, ∀ v ∈ d.values, v.Meets Leaf.Legible Callee.Legible

/-- A declaration has the heading it had before a walk. -/
theorem Alike.heading_eq {p p' : Program} (h : Alike p p') {d' : Declaration} (hd' : d' ∈ p'.all) :
    ∃ d ∈ p.all, d.id = d'.id ∧ d.heading = d'.heading ∧ d.isMacro = d'.isMacro := by
  cases d' with
  | global g' =>
    obtain ⟨i, hi⟩ := Array.mem_iff_getElem?.mp (mem_all_global.mp hd')
    obtain ⟨g, hg, hsig⟩ := h.symm.getElem?_globals hi
    have hid := Global.id_eq_of_signature hsig
    have htype : g'.signature.type = g.signature.type := by rw [hsig]
    refine ⟨.global g, mem_all_global.mpr (Array.mem_of_getElem? hg), ?_, ?_, rfl⟩
    · rw [Declaration.id, Declaration.id, hid]
    · rw [Declaration.heading, Declaration.heading, hid, show g'.type = g.type from htype]
  | script s' =>
    obtain ⟨i, hi⟩ := Array.mem_iff_getElem?.mp (mem_all_script.mp hd')
    obtain ⟨s, hs, hsig⟩ := h.symm.getElem?_scripts hi
    have hid := Script.id_eq_of_signature hsig
    have hkind := Script.kind_eq_of_signature hsig
    have hreturn : s'.signature.returnType = s.signature.returnType := by rw [hsig]
    refine ⟨.script s, mem_all_script.mpr (Array.mem_of_getElem? hs), ?_, ?_, ?_⟩
    · rw [Declaration.id, Declaration.id, hid]
    · rw [Declaration.heading, Declaration.heading, hid, hkind,
        show s'.returnType = s.returnType from hreturn]
    · rw [Declaration.isMacro, Declaration.isMacro, Script.isMacro, Script.isMacro, hkind]

end Program

/-! ## 3. Hooks that write down what they have read -/

/-- What the hooks put in meets the conditions, if what they see and what they remember does. -/
structure Hooks.Recount (h : Hooks Env) (leafOk : Leaf → Prop) (callOk : CallCondition) : Prop where
  onGlobal : ∀ view g e, view.scene.LeavesMeet leafOk →
    (∀ g', view.scene.global? g.id = some g' → g'.value.Meets leafOk fun _ _ => True) →
    e.Recalls leafOk → (h.onGlobal view g e).2.Recalls leafOk
  onScript : ∀ a e, (h.onScript a e).2 = e
  onCall : ∀ head e, h.onCall head e = e
  onElement : ∀ view place v e, view.scene.LeavesMeet leafOk → e.Recalls leafOk →
    v.Meets leafOk callOk → (h.onElement view place v e).2.Recalls leafOk ∧
      ∀ w ∈ (h.onElement view place v e).1.values, w.Meets leafOk callOk
  onValue : ∀ view v e, view.scene.LeavesMeet leafOk → e.Recalls leafOk → v.Meets leafOk callOk →
    (h.onValue view v e).2.Recalls leafOk ∧ (h.onValue view v e).1.Meets leafOk callOk

theorem ConstGlobals.hooks_recount (hw : Leaf.Writable leafOk) (callOk : CallCondition) :
    hooks.Recount leafOk callOk where
  onGlobal _ g _ hview hg he := judge_recalls hw hview g hg he
  onScript _ _ := rfl
  onCall _ _ := rfl
  onElement _ _ _ _ _ he hv := ⟨he, forall_mem_singleton.mpr hv⟩
  onValue _ v _ hview he hv := inline_meets hw hview v he hv

theorem Folding.hooks_recount (hw : Leaf.Writable leafOk) {callOk : CallCondition}
    (hbegin : callOk (.word "begin" none) false) :
    hooks.Recount leafOk callOk where
  onGlobal _ _ _ _ _ he := he
  onScript _ _ := rfl
  onCall _ _ := rfl
  onElement _ place _ _ hview he hv :=
    ⟨(keeps_recalls hw hview).foldElement id place hv he, foldElement_meets hbegin place hv⟩
  onValue _ _ _ hview he hv := ⟨(keeps_recalls hw hview).foldValue hv he,
    foldValue_meets hv fun _ _ _ _ hcall => literal?_meets hw hview he (hcall ▸ hv)⟩

namespace Standing

variable {p : Program} {s s' : Standing Env} {h : Hooks Env} {leafOk : Leaf → Prop}
  {callOk : CallCondition}

/-- All declarations meet the conditions, and so does what is remembered. -/
structure Recounts (p : Program) (leafOk : Leaf → Prop) (callOk : CallCondition)
    (s : Standing Env) : Prop where
  encloses : s.now.Encloses (· ∈ p.allIds) leafOk callOk
  recalls : s.state.Recalls leafOk

/-- What hooks see of a global that there is meets the conditions. -/
theorem Recounts.shown (hq : s.Recounts p leafOk callOk) (hs : s.Orderly p) {view : View}
    (hview : view.Shows s) {id : GlobalId} (hid : .global id ∈ p.allIds) {g : Global}
    (hg : view.scene.global? id = some g) : g.value.Meets leafOk fun _ _ => True := by
  rw [hview.known id (hs.known_now hid)] at hg
  have hcontent : s.now.content (.global id) = [g.value] :=
    Program.content_eq (a := .global g) (congrArg (Option.map Declaration.global) hg)
  have hmeets := hq.encloses.content _ hid g.value (hcontent ▸ mem_singleton_self _)
  exact hmeets.mono (fun _ hl => hl) fun _ _ _ => trivial

/-- One move of the walk keeps the conditions on leaves and calls.  What a value refers to has to be
in the program (`hc`), since its content may be put in the place of the reference. -/
theorem Recounts.move (hq : s.Recounts p leafOk callOk) (hh : h.Recount leafOk callOk)
    (hc : Closes (· ∈ p.allIds) leafOk callOk) (hp : p.Tidy) (hs : s.Orderly p)
    (hmove : Move h s s') : s'.Recounts p leafOk callOk := by
  have hview : ∀ {view : View}, view.Shows s → view.scene.LeavesMeet leafOk :=
    fun hview id g hleaf hg => hq.shown hs hview (hc.leaf hleaf _ rfl) hg
  have hkeep : h.KeepUnder s.Gives leafOk callOk :=
    ⟨fun view place v e ⟨hshows, he⟩ hv =>
        (hh.onElement view place v e (hview hshows) (he ▸ hq.recalls) hv).2,
      fun view v e ⟨hshows, he⟩ hv =>
        (hh.onValue view v e (hview hshows) (he ▸ hq.recalls) hv).2⟩
  refine ⟨hs.encloses_move hp hq.encloses hkeep hmove, ?_⟩
  have hfocus : ∀ {spot : Spot} {d : DeclId} {ws vs : List Value}, d ∈ s.opened →
      spot.Edit ws d.owner (s.now.content d) vs → spot.focus.Meets leafOk callOk :=
    fun hd hedit => hedit.focus_meets (hq.encloses.content _ (hs.opened_known _ hd))
  cases hmove with
  | global view g hshows hg hunseen =>
    exact hh.onGlobal view g s.state (hview hshows)
      (fun g' => hq.shown hs hshows (hs.unseen_known _ hunseen)) hq.recalls
  | script a =>
    show (h.onScript a s.state).2.Recalls leafOk
    rw [hh.onScript]
    exact hq.recalls
  | element view d spot vs rest hshows hd howner hdue hpending hedit =>
    exact (hh.onElement view spot.place spot.focus s.state (hview hshows) hq.recalls
      (hfocus hd hedit)).1
  | value view d spot vs rest hshows hd hoffered hdue hpending hedit =>
    exact (hh.onValue view spot.focus s.state (hview hshows) hq.recalls (hfocus hd hedit)).1
  | call head =>
    show (h.onCall head s.state).Recalls leafOk
    rw [hh.onCall]
    exact hq.recalls
  | skip => exact hq.recalls

end Standing

theorem Pass.run_recounts (pass : Pass) {p : Program} (hp : p.Tidy) {callOk : CallCondition}
    (h : p.Encloses (· ∈ p.allIds) leafOk callOk) (hc : Closes (· ∈ p.allIds) leafOk callOk)
    (hh : pass.hooks.Recount leafOk callOk) (report : Report) (limit : Int64) :
    (pass.run p (.fresh p.nextNode report limit)).1.Encloses (· ∈ p.allIds) leafOk callOk := by
  obtain ⟨s, hs, hf⟩ := pass.run_final hp report limit (Q := fun s => s.Recounts p leafOk callOk)
    ⟨h, Memo.all_empty _⟩ fun s s' hs hq hmove => hq.move hh hc hp hs hmove
  exact hf.encloses hs.encloses

/-! ## 4. Every step keeps texts readable -/

/-- The text of a leaf can be read, and the declaration it refers to is there. -/
def Leaf.Sound (ids : List DeclId) (l : Leaf) : Prop := l.Legible ∧ l.RefersIn (· ∈ ids)

def Callee.Sound (ids : List DeclId) : CallCondition :=
  fun c clause => Callee.Legible c clause ∧ Callee.RefersIn (· ∈ ids) c clause

theorem Leaf.sound_atom (ids : List DeclId) {t : Text} (ht : (Leaf.atom t).Legible) :
    (Leaf.atom t).Sound ids := ⟨ht, Leaf.refersIn_atom t⟩

theorem Leaf.sound_writable (ids : List DeclId) : Leaf.Writable (Leaf.Sound ids) where
  int n := sound_atom ids (legible_writable.int n)
  real x h := sound_atom ids (legible_writable.real x h)
  bool b := sound_atom ids (legible_writable.bool b)
  script s h := sound_atom ids (legible_writable.script s h.1)

namespace Program

variable {p : Program} {report : Report} {limit : Int64}

/-- All texts can be read, and all references lead somewhere. -/
abbrev Sound (p : Program) : Prop :=
  p.Encloses (· ∈ p.allIds) (Leaf.Sound p.allIds) (Callee.Sound p.allIds)

theorem Legible.sound (hl : p.Legible) (hp : p.Tidy) (hin : p.Anchored) : p.Sound where
  known _ hd := hd
  table := hin.table
  content d hd v hv := by
    obtain ⟨a, ha, rfl⟩ := mem_map.mp (allIds_eq_map p ▸ hd)
    have hrefers := hin.content _ hd v hv
    rw [content_eq (hp.declaration?_id ha)] at hv
    have hlegible := hl.values a ha v hv
    exact ⟨fun l hl => ⟨hlegible.1 l hl, hrefers.1 l hl⟩,
      fun c hc => ⟨hlegible.2 c hc, hrefers.2 c hc⟩⟩

/-- **Every step keeps texts readable.** -/
theorem Sound.run (h : p.Sound) (hp : p.Tidy) (pass : Pass) :
    (pass.run p (.fresh p.nextNode report limit)).1.Sound := by
  have hc : Closes (· ∈ p.allIds) (Leaf.Sound p.allIds) (Callee.Sound p.allIds) :=
    ⟨fun hl => hl.2, fun hk => hk.2⟩
  have hbegin : Callee.Sound p.allIds (.word "begin" none) false :=
    ⟨Callee.legible_begin, Callee.refersIn_word _ _ _⟩
  have hkeeps : (pass.run p (.fresh p.nextNode report limit)).1.Encloses (· ∈ p.allIds)
      (Leaf.Sound p.allIds) (Callee.Sound p.allIds) := by
    cases pass with
    | macros =>
      obtain ⟨s, -, hconfined, hf⟩ := Macros.run_confined hp h hc hbegin report limit
      exact hf.encloses hconfined.encloses
    | loops =>
      have hkeep : Pass.loops.hooks.Keep (Leaf.Sound p.allIds) (Callee.Sound p.allIds) :=
        Loops.hooks_keep (Leaf.sound_writable _).int hbegin
      exact Encloses.run h hp hkeep report limit
    | constGlobals =>
      exact Pass.constGlobals.run_recounts hp h hc
        (ConstGlobals.hooks_recount (Leaf.sound_writable _) _) report limit
    | folding =>
      exact Pass.folding.run_recounts hp h hc
        (Folding.hooks_recount (Leaf.sound_writable _) hbegin) report limit
  rw [(pass.run_alike hp report limit).allIds_eq] at hkeeps
  exact hkeeps

theorem Sound.lower (h : p.Sound) (hp : p.Tidy) (passes : List Pass) :
    (Lowered.run limit p report passes).program.Tidy ∧
      Alike p (Lowered.run limit p report passes).program ∧
      (Lowered.run limit p report passes).program.Sound := by
  induction passes generalizing p report with
  | nil => exact ⟨hp, .refl p, h⟩
  | cons pass rest ih =>
    have htidy := pass.run_tidy hp report limit
    have halike := pass.run_alike hp report limit
    have hsound : (pass.run p (.fresh p.nextNode report limit)).1.Sound := h.run hp pass
    rw [Lowered.run]
    dsimp only
    split
    · exact ⟨htidy, halike, hsound⟩
    · obtain ⟨htidy', halike', hsound'⟩ := ih hsound htidy
      exact ⟨htidy', halike.trans halike', hsound'⟩

/-- **Lowering keeps texts readable**, whatever steps are selected, and all signatures. -/
theorem lower_legible (set : PassSet) (hp : p.Tidy) (hl : p.Legible) (hin : p.Anchored) :
    (p.lower report set limit).program.Tidy ∧ Alike p (p.lower report set limit).program ∧
      (p.lower report set limit).program.Legible := by
  obtain ⟨htidy, halike, hsound⟩ := (hl.sound hp hin).lower hp set.toList
  refine ⟨htidy, halike, fun d hd t ht => ?_, fun d hd v hv => ?_⟩
  · obtain ⟨d₀, hd₀, -, hheading, -⟩ := halike.heading_eq hd
    exact hl.heading d₀ hd₀ t (hheading ▸ ht)
  · rw [← content_eq (htidy.declaration?_id hd)] at hv
    have hknown := allIds_eq_map _ ▸ mem_map_of_mem hd
    exact (hsound.content _ hknown v hv).mono (fun _ hl => hl.1) fun _ _ hc => hc.1

end Program

end HaloScript
