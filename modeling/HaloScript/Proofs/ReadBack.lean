/-
# Reading compiled output

Compiling a source and compiling the output again, with no lowering steps, need not lead to the
same output.  Lowering splices bodies of macros and of loops into scripts and arguments, and what
comes out may lie outside the grammar: an atom that is not the last element of a script, a script
without a body, a `cond` whose arguments are ordinary calls.  It is printed nevertheless.

`Compilation.reads_back_iff` has the exact condition.  If no text that is printed begins with a
quote, the output reads back exactly if every declaration that is printed has a reading in the
grammar and no reading calls a global (`Program.Rereads`).  In general it does exactly if the
output is the text of some declarations that can be read (`DeclOutline.Stable`); they may be
others than the ones that were compiled, since a quote at the beginning of an atom can open a
quoted atom that ends at another quote further on.
-/
import HaloScript.Compiler
import HaloScript.Proofs.Lowering.Texts
import HaloScript.Proofs.RoundTrip

namespace HaloScript

open List Option Bool Lexer Outline Program Shape

/-! ## 1. The texts of a loaded program -/

namespace Outline

mutual

/-- The texts of an outline: its leaves and the names that are called. -/
def texts : Outline → List Text
  | .leaf text _ => text.toList
  | .call function _ _ args => function :: textsAll args

def textsAll : List Outline → List Text
  | [] => []
  | o :: rest => texts o ++ textsAll rest

end

mutual

theorem texts_link (dir : Directory) (o : Outline) : (o.link dir).texts = o.texts := by
  match o with
  | .leaf none l => cases l <;> rfl
  | .leaf (some t) l => cases l <;> rfl
  | .call f l clause args =>
    have ih := textsAll_linkAll dir args
    cases l <;> cases clause <;> simp [link, texts, ih]

theorem textsAll_linkAll (dir : Directory) (os : List Outline) :
    textsAll (linkAll dir os) = textsAll os := by
  match os with
  | [] => rfl
  | o :: rest => rw [linkAll, textsAll, textsAll, texts_link dir o, textsAll_linkAll dir rest]

end

end Outline

namespace Value

mutual

theorem meets_of_texts (place : DeclId → Option Nat) (v : Value)
    (h : ∀ t ∈ (v.outline place).texts, t.Readable) : v.Meets Leaf.Legible Callee.Legible := by
  match v with
  | .leaf tag l =>
    rw [meets_leaf]
    intro t ht
    refine h t ?_
    cases l <;> simp_all [outline, Leaf.outline, texts, Leaf.text?]
  | .call tag head args =>
    rw [outline, texts, forall_mem_cons] at h
    rw [meets_call]
    exact ⟨h.1, meetsAll_of_texts place args h.2⟩

theorem meetsAll_of_texts (place : DeclId → Option Nat) (vs : List Value)
    (h : ∀ t ∈ textsAll (outlineAll place vs), t.Readable) :
    ∀ v ∈ vs, v.Meets Leaf.Legible Callee.Legible := by
  match vs with
  | [] => exact fun v hv => absurd hv not_mem_nil
  | v :: rest =>
    rw [outlineAll, textsAll, forall_mem_append] at h
    rw [forall_mem_cons]
    exact ⟨meets_of_texts place v h.1, meetsAll_of_texts place rest h.2⟩

end

end Value

namespace Shape

mutual

/-- The texts of a reading are atoms of the shape, but for the name that clauses get. -/
theorem value?_texts {inCond : Bool} {x : Shape} {o : Outline} (h : x.value? inCond = some o)
    {t : Text} (ht : t ∈ o.texts) : t = ("if" : Text) ∨ Lexeme.atom t ∈ x.lexemes := by
  match x with
  | .atom u =>
    rw [value?, some_inj] at h
    subst h
    exact .inr (by simpa [texts, lexemes] using ht)
  | .list [] => simp [value?] at h
  | .list (first :: rest) =>
    have hin : Lexeme.atom t ∈ lexemesAll (first :: rest) →
        Lexeme.atom t ∈ (Shape.list (first :: rest)).lexemes := fun h => by simp [lexemes, h]
    rw [value?] at h
    split at h
    · obtain ⟨args, hargs, rfl⟩ := map_eq_some_iff.mp h
      rcases mem_cons.mp ht with rfl | ht
      · exact .inl rfl
      · exact (values?_texts hargs ht).imp_right hin
    · obtain ⟨name, hname, h⟩ := bind_eq_some_iff.mp h
      obtain ⟨args, hargs, rfl⟩ := map_eq_some_iff.mp h
      cases first with
      | list => simp [text?] at hname
      | atom u =>
        obtain rfl : u = name := by simpa [text?] using hname
        rcases mem_cons.mp ht with rfl | ht
        · exact .inr (hin (by simp [lexemesAll, lexemes]))
        · exact (values?_texts hargs ht).imp_right fun h => hin (by simp [lexemesAll, h])

theorem values?_texts {inCond : Bool} {xs : List Shape} {os : List Outline}
    (h : values? inCond xs = some os) {t : Text} (ht : t ∈ textsAll os) :
    t = ("if" : Text) ∨ Lexeme.atom t ∈ lexemesAll xs := by
  match xs with
  | [] =>
    rw [values?, some_inj] at h
    subst h
    simp [textsAll] at ht
  | x :: rest =>
    rw [values?] at h
    obtain ⟨v, hv, h⟩ := bind_eq_some_iff.mp h
    obtain ⟨vs, hvs, rfl⟩ := map_eq_some_iff.mp h
    rw [lexemesAll, mem_append]
    rcases mem_append.mp ht with ht | ht
    · exact (value?_texts hv ht).imp_right .inl
    · exact (values?_texts hvs ht).imp_right .inr

end

/-- The texts of a body are atoms that were written there, apart from the `if` that a `cond`
becomes. -/
theorem body?_texts : ∀ {xs : List Shape} {os : List Outline}, body? xs = some os → ∀ {t : Text},
    t ∈ textsAll os → t = ("if" : Text) ∨ Lexeme.atom t ∈ lexemesAll xs
  | [], os, h, t, ht => by
    rw [body?, some_inj] at h
    subst h
    simp [textsAll] at ht
  | [x], os, h, t, ht => by
    rw [body?] at h
    obtain ⟨v, hv, rfl⟩ := map_eq_some_iff.mp h
    simp only [textsAll, append_nil] at ht
    simpa [lexemesAll] using value?_texts hv ht
  | .atom _ :: _ :: _, os, h, t, _ => by simp [body?] at h
  | .list items :: y :: rest, os, h, t, ht => by
    rw [body?] at h
    obtain ⟨v, hv, h⟩ := bind_eq_some_iff.mp h
    obtain ⟨vs, hvs, rfl⟩ := map_eq_some_iff.mp h
    rw [lexemesAll, mem_append]
    rcases mem_append.mp ht with ht | ht
    · exact (value?_texts hv ht).imp_right .inl
    · exact (body?_texts hvs ht).imp_right .inr

theorem readable_if : Text.Readable "if" := by
  have hword : Text.IsWord "if" := by decide
  exact hword.readable

/-- A declaration that is read from readable atoms, a macro as well, has readable texts. -/
theorem declaration?_readable {items : List Shape} {d : DeclOutline}
    (h : declaration? items = some (some d))
    (hread : ∀ t, Lexeme.atom t ∈ lexemesAll items → t.Readable) :
    (∀ t ∈ d.heading, t.Readable) ∧ ∀ t ∈ textsAll d.values, t.Readable := by
  have hparts : ∃ word front tail, items = .atom word :: (d.heading.map .atom ++ (front ++ tail)) ∧
      body? tail = some d.values := by
    obtain ⟨word, rest, rfl, hglobal | hscript⟩ := declaration?_eq_some h
    · obtain ⟨-, -, hitems, hbody⟩ := global?_eq_some hglobal
      exact ⟨word, [], _, by rw [hitems, nil_append], hbody⟩
    · obtain ⟨_, _, _, _, _, _, tail, rfl, -, -, hitems, hparams, hbody⟩ := script?_parts hscript
      obtain ⟨front, rfl⟩ := nextParams?_suffix hparams
      exact ⟨word, front, tail, by rw [hitems], hbody⟩
  obtain ⟨word, front, tail, rfl, hbody⟩ := hparts
  simp only [lexemesAll, lexemes, lexemesAll_append, lexemesAll_map_atom, mem_append] at hread
  refine ⟨fun t ht => hread t (.inr (.inl (List.mem_map_of_mem ht))), fun t ht => ?_⟩
  rcases body?_texts hbody ht with rfl | hin
  · exact readable_if
  · exact hread t (.inr (.inr (.inr hin)))

end Shape

namespace Declaration

theorem regular_outline {place place' : DeclId → Option Nat} {d : Declaration}
    (h : (d.outline place).Regular) : (d.outline place').Regular := by
  cases d <;> exact h

section

variable (place : DeclId → Option Nat) (d : Declaration)

include place d

theorem heading_outline : (d.outline place).heading = d.heading := by
  cases d <;> rfl

theorem keyword_outline : (d.outline place).keyword = d.keyword := by
  cases d <;> rfl

theorem values_outline : (d.outline place).values = Value.outlineAll place d.values := by
  cases d <;> rfl

end

theorem keyword_eq_of_id {d d' : Declaration} (h : d.id = d'.id) : d.keyword = d'.keyword := by
  cases d <;> cases d' <;> simp_all [id, keyword]

end Declaration

namespace DeclOutline

theorem heading_link (dir : Directory) (d : DeclOutline) : (d.link dir).heading = d.heading := by
  cases d <;> rfl

theorem regular_link (dir : Directory) {d : DeclOutline} (h : d.Regular) :
    (d.link dir).Regular := by
  cases d <;> exact h

theorem textsAll_link (dir : Directory) (d : DeclOutline) :
    textsAll (d.link dir).values = textsAll d.values := by
  cases d with
  | global => simp [link, values, textsAll, texts_link]
  | script kind returnType name params body => exact textsAll_linkAll _ body

end DeclOutline

namespace Program

/-- **Every text of a loaded program can be read**, and what is no macro has a regular heading. -/
theorem load_readable {lib : Library} {entry : Entry} (hok : (load {} {} lib entry).ok = true) :
    (load {} {} lib entry).program.Legible ∧
      ∀ d ∈ (load {} {} lib entry).program.all, d.isMacro = false →
        (d.outline fun _ => none).Regular := by
  obtain ⟨-, more, draft, hsourced, hforms, -, hall, -⟩ := load_drawn hok
  obtain ⟨-, horigin⟩ := Draft.forms?_origin (fun o ho => absurd ho not_mem_nil) hforms
  have hdrawn : ∀ d ∈ (load {} {} lib entry).program.all, ∃ f : Form, ∃ o place, f.Sourced ∧
      Shape.declaration? (Form.shapes f.items) = some (some o) ∧
      d.outline place = o.link draft.directory := by
    intro d hd
    obtain ⟨o, ho, place, heq⟩ := hall d hd
    rcases horigin o ho with hnil | ⟨items, hitems, hread⟩
    · exact absurd hnil not_mem_nil
    · obtain ⟨f, hf, rfl⟩ := List.mem_map.mp hitems
      exact ⟨f, o, place, hsourced f hf, hread, heq⟩
  refine ⟨⟨fun d hd t ht => ?_, fun d hd => ?_⟩, fun d hd hm => ?_⟩
  · obtain ⟨f, o, place, hf, hread, heq⟩ := hdrawn d hd
    rw [← Declaration.heading_outline place, heq, DeclOutline.heading_link] at ht
    exact (declaration?_readable hread hf.readable).1 t ht
  · obtain ⟨f, o, place, hf, hread, heq⟩ := hdrawn d hd
    refine Value.meetsAll_of_texts place d.values fun t ht => ?_
    rw [← Declaration.values_outline, heq, DeclOutline.textsAll_link] at ht
    exact (declaration?_readable hread hf.readable).2 t ht
  · obtain ⟨f, o, place, hf, hread, heq⟩ := hdrawn d hd
    have ho : o.isMacro = false := by
      rw [← DeclOutline.isMacro_link draft.directory, ← heq, DeclOutline.isMacro_outline, hm]
    have hregular := DeclOutline.regular_link draft.directory
      (DeclOutline.legible_of_sourced hf hread ho).regular
    rw [← heq] at hregular
    exact Declaration.regular_outline hregular

end Program

/-! ## 2. Texts that are printed as they are read -/

namespace Outline

mutual

theorem callsGlobal_mono {dir dir' : Directory}
    (h : ∀ t, (dir t).any (!·.1) = true → (dir' t).any (!·.1) = true) (o : Outline)
    (ho : o.callsGlobal dir' = false) : o.callsGlobal dir = false := by
  match o with
  | .leaf _ _ => rfl
  | .call f l clause args =>
    rw [callsGlobal, or_eq_false_iff] at ho ⊢
    refine ⟨?_, callsGlobalAll_mono h args ho.2⟩
    rw [and_eq_false_iff] at ho ⊢
    refine ho.1.imp_right fun hf => ?_
    rw [← not_eq_true] at hf ⊢
    exact fun hglobal => hf (h f hglobal)

theorem callsGlobalAll_mono {dir dir' : Directory}
    (h : ∀ t, (dir t).any (!·.1) = true → (dir' t).any (!·.1) = true) (os : List Outline)
    (ho : callsGlobalAll dir' os = false) : callsGlobalAll dir os = false := by
  match os with
  | [] => rfl
  | o :: rest =>
    rw [callsGlobalAll, or_eq_false_iff] at ho ⊢
    exact ⟨callsGlobal_mono h o ho.1, callsGlobalAll_mono h rest ho.2⟩

end

end Outline

namespace DeclOutline

/-- A name means a global if it is the name of one. -/
theorem directory_any_iff {ds : List DeclOutline} (hnames : (ds.map name).Nodup) (t : Text) :
    (directory ds t).any (!·.1) = true ↔ ∃ o ∈ ds, o.name = t ∧ o.isScript = false := by
  unfold directory
  cases hfind : ds.findIdx? (·.name == t) with
  | none =>
    rw [findIdx?_eq_none_iff] at hfind
    simp only [bind_none, any_none, false_eq_true, false_iff]
    rintro ⟨o, ho, rfl, -⟩
    simpa using hfind o ho
  | some k =>
    obtain ⟨hk, hname, -⟩ := findIdx?_eq_some_iff_getElem.mp hfind
    have hname : ds[k].name = t := by simpa using hname
    simp only [bind_some, getElem?_eq_getElem hk, map_some, any_some,
      not_eq_true']
    constructor
    · exact fun h => ⟨ds[k], getElem_mem hk, hname, h⟩
    · rintro ⟨o, ho, honame, hsort⟩
      obtain rfl : o = ds[k] := inj_on_of_nodup_map hnames ho (getElem_mem hk)
        (honame.trans hname.symm)
      exact hsort

/-- Among some of the declarations, no global is called if none is called among all of them. -/
theorem callsGlobal_of_sublist {ds ds' : List DeclOutline} (hsub : ds.Sublist ds')
    (hnames : (ds'.map name).Nodup) {o : DeclOutline}
    (h : o.callsGlobal (directory ds') = false) : o.callsGlobal (directory ds) = false := by
  refine callsGlobalAll_mono (fun t ht => ?_) o.values h
  unfold Directory.without at ht ⊢
  split at ht
  · exact absurd ht (by simp)
  · next hhidden =>
    rw [if_neg hhidden, directory_any_iff hnames]
    rw [directory_any_iff (hnames.sublist (hsub.map name))] at ht
    obtain ⟨o', ho', hname, hsort⟩ := ht
    exact ⟨o', hsub.subset ho', hname, hsort⟩

/-- Declarations that are read from what is written for them. -/
structure Stable (ds : List DeclOutline) : Prop where
  plain : ∀ o ∈ ds, o.isMacro = false
  reread : ∀ o ∈ ds, Shape.declaration? o.written = some (some o)
  names : (ds.map name).Nodup
  calls : ∀ o ∈ ds, o.callsGlobal (directory ds) = false
  atoms : ∀ t, Lexeme.atom t ∈ formLexemes (ds.map written) → t.Readable ∧ ¬ t.StartsQuote

namespace Stable

variable {ds : List DeclOutline} (hs : Stable ds)

include hs

theorem legible : ∀ o ∈ ds, o.Legible := by
  intro o ho
  have hatoms : ∀ t, Lexeme.atom t ∈ lexemesAll o.written → t.Readable ∧ ¬ t.StartsQuote :=
    fun t ht => hs.atoms t (atom_mem_formLexemes.mpr ⟨_, List.mem_map_of_mem ho, ht⟩)
  obtain ⟨hregular, hbody, -, -⟩ := Shape.declaration?_written (hs.reread o ho) (hs.plain o ho)
  refine ⟨hregular, hs.reread o ho, hbody, fun t ht => (hatoms t ht).1, fun t ht => ?_,
    fun t ht hq => ?_⟩
  · refine (hatoms t ?_).2
    rw [written, lexemesAll_append, lexemesAll_map_atom]
    exact mem_append_left _ (List.mem_map_of_mem ht)
  · refine absurd hq (hatoms t ?_).2
    rw [written, lexemesAll_append]
    exact mem_append_right _ ht

/-- The text of such declarations is loaded, and printed as it was. -/
theorem reload (lib : Library) (file : Text) (layout : Layout) :
    let again := load {} {} lib (.source ⟨file, renderForms layout (ds.map written)⟩)
    again.ok = true ∧ again.program.print layout = renderForms layout (ds.map written) := by
  intro again
  have hplain : ∀ x ∈ formLexemes (ds.map written), ¬ x.StartsQuote := by
    rintro x hx ⟨t, rfl, hq⟩
    exact (hs.atoms t hx).2 hq
  obtain ⟨hok, houtline⟩ := reload_ok hs.legible hs.names lib file layout hs.calls hplain
  have hfilter : ds.filter (!·.isMacro) = ds :=
    filter_eq_self.mpr fun o ho => by simp [hs.plain o ho]
  refine ⟨hok, ?_⟩
  rw [print_eq_renderForms, written_eq, houtline, filter_plain_link,
    hfilter, map_written_link]

end Stable

/-- **A text that is printed as it was read** is the text of such declarations. -/
theorem stable_of_reload {lib : Library} {file text : Text} {layout : Layout}
    (hok : (load {} {} lib (.source ⟨file, text⟩)).ok = true)
    (hprint : (load {} {} lib (.source ⟨file, text⟩)).program.print layout = text) :
    ∃ ds, Stable ds ∧ renderForms layout (ds.map written) = text := by
  obtain ⟨all, houtline, hlegible, hnames, hstrip, hcalls⟩ := load_listed hok
  have hsub : (all.filter (!·.isMacro)).Sublist all := filter_sublist
  have hmem : ∀ o ∈ all.filter (!·.isMacro), o ∈ all ∧ o.isMacro = false := by
    intro o ho
    simpa using mem_filter.mp ho
  replace hlegible : ∀ o ∈ all.filter (!·.isMacro), o.Legible := fun o ho =>
    hlegible o (hmem o ho).1 (hmem o ho).2
  have hnames' := hnames.sublist (hsub.map name)
  rw [print_eq_renderForms, written_eq, houtline, filter_plain_link,
    map_written_link] at hprint
  have hquote : ∀ x ∈ formLexemes ((all.filter (!·.isMacro)).map written),
      ¬ x.StartsQuote := by
    refine plain_of_reload hlegible hnames' lib file layout (hprint.symm ▸ hok) ?_
    rw [hprint, houtline, filter_plain_link,
      map_strip_link _ fun o ho => hstrip o (hmem o ho).1]
  refine ⟨all.filter (!·.isMacro), ⟨fun o ho => (hmem o ho).2, fun o ho => (hlegible o ho).reread,
    hnames', fun o ho => callsGlobal_of_sublist hsub hnames (hcalls o (hmem o ho).1),
    fun t ht => ⟨readable_of_legible hlegible t ht, fun hq => hquote _ ht ⟨t, rfl, hq⟩⟩⟩,
    hprint⟩

end DeclOutline

/-! ## 3. Texts of a lowered program -/

namespace Value

mutual

/-- What is written for a legible value can be read. -/
theorem readable_written (v : Value) (h : v.Meets Leaf.Legible Callee.Legible) {t : Text}
    (ht : Lexeme.atom t ∈ lexemesAll v.written) : t.Readable := by
  match v with
  | .leaf tag l =>
    rw [meets_leaf] at h
    refine h t ?_
    rw [written] at ht
    cases hl : l.text? <;> simp_all [lexemesAll, lexemes]
  | .call tag head args =>
    rw [meets_call] at h
    have hin : Lexeme.atom t ∈ lexemesAll
        ((if head.clause then [] else [Shape.atom head.callee.name]) ++ writtenAll args) := by
      simpa [written, lexemesAll, lexemes] using ht
    rw [lexemesAll_append, mem_append] at hin
    rcases hin with hin | hin
    · obtain rfl : t = head.callee.name := by
        split at hin <;> simp_all [lexemesAll, lexemes]
      exact h.1
    · exact readable_writtenAll args h.2 hin

theorem readable_writtenAll (vs : List Value) (h : ∀ v ∈ vs, v.Meets Leaf.Legible Callee.Legible)
    {t : Text} (ht : Lexeme.atom t ∈ lexemesAll (writtenAll vs)) : t.Readable := by
  match vs with
  | [] => simp [writtenAll, lexemesAll] at ht
  | v :: rest =>
    rw [forall_mem_cons] at h
    rw [writtenAll, lexemesAll_append, mem_append] at ht
    rcases ht with ht | ht
    · exact readable_written v h.1 ht
    · exact readable_writtenAll rest h.2 ht

end

end Value

namespace Shape

/-- The printed text determines what was printed, if no atom begins with a quote. -/
theorem renderForms_injective (layout : Layout) {forms forms' : List (List Shape)}
    (h : ∀ t, Lexeme.atom t ∈ formLexemes forms → t.Readable ∧ ¬ t.StartsQuote)
    (h' : ∀ t, Lexeme.atom t ∈ formLexemes forms' → t.Readable ∧ ¬ t.StartsQuote)
    (heq : renderForms layout forms = renderForms layout forms') : forms = forms' := by
  have hscan : ∀ {fs : List (List Shape)},
      (∀ t, Lexeme.atom t ∈ formLexemes fs → t.Readable ∧ ¬ t.StartsQuote) →
      (Lexer.run (renderForms layout fs)).found.reverse = formLexemes fs := by
    intro fs hfs
    rcases run_renderForms layout fun t ht => (hfs t ht).1 with
      ⟨-, hfound, -⟩ | ⟨t, ht, hq, -⟩
    · exact hfound
    · exact absurd hq (hfs t ht).2
  have hlexemes : formLexemes forms = formLexemes forms' := by
    rw [← hscan h, ← hscan h', heq]
  have hinj : Function.Injective Shape.list := fun xs ys => Shape.list.inj
  exact map_injective_iff.mpr hinj (lexemesAll_injective hlexemes)

/-- What starts with a regular heading is written as it is read, under the name in the heading. -/
theorem declaration?_of_heading {o : DeclOutline} (ho : o.Regular) {rest : List Shape}
    {reading : Option DeclOutline}
    (h : declaration? ((o.keyword :: o.heading).map .atom ++ rest) = some reading) :
    ∃ d, reading = some d ∧ d.isMacro = false ∧ d.name = o.name ∧
      d.written = (o.keyword :: o.heading).map .atom ++ rest := by
  obtain ⟨d, rfl, hframe, hplain⟩ := declaration?_frame ho h
  obtain ⟨-, -, word, hitems⟩ := declaration?_written h hplain
  have hkeyword : d.keyword = o.keyword := by
    cases d <;> cases o <;> simp_all [DeclOutline.frame, DeclOutline.keyword]
  refine ⟨d, rfl, hplain, DeclOutline.name_eq_of_frame hframe, ?_⟩
  rw [hitems, DeclOutline.written, hkeyword]
  rw [map_cons, cons_append, List.cons.injEq] at hitems
  rw [← hitems.1]
  rfl

end Shape

namespace Program

theorem Legible.readable {p : Program} (h : p.Legible) (hp : p.Tidy) :
    ∀ t, Lexeme.atom t ∈ formLexemes p.written → t.Readable := by
  intro t ht
  obtain ⟨items, hitems, ht⟩ := atom_mem_formLexemes.mp ht
  obtain ⟨d, hd, rfl⟩ := List.mem_map.mp hitems
  have hall : d ∈ p.all := (hp.mem_declarations.mp (mem_of_mem_filter hd)).1
  rw [Declaration.written, lexemesAll_append, lexemesAll_map_atom,
    mem_append] at ht
  rcases ht with ht | ht
  · obtain ⟨u, hu, hut⟩ := List.mem_map.mp ht
    obtain rfl : u = t := by simpa using hut
    rcases mem_cons.mp hu with rfl | hu
    · rw [← Declaration.keyword_outline p.place]
      exact (DeclOutline.keyword_readable _).1
    · exact h.heading d hall u hu
  · exact Value.readable_writtenAll _ (h.values d hall) ht

/-- The readings, in the grammar, of what is printed. -/
def readings (p : Program) : List DeclOutline :=
  p.written.filterMap fun items => (Shape.declaration? items).join

/-- Every declaration that is printed has a reading in the grammar, and no reading calls a
global. -/
def Rereads (p : Program) : Prop :=
  (∀ items ∈ p.written, (Shape.declaration? items).isSome = true) ∧
    ∀ o ∈ p.readings, o.callsGlobal (DeclOutline.directory p.readings) = false

instance (p : Program) : Decidable p.Rereads := inferInstanceAs (Decidable (_ ∧ _))

/-- The readings of declarations with regular headings are written as the declarations are, and
have their names. -/
theorem readings_spec {ds : List Declaration}
    (hheads : ∀ d ∈ ds, ∃ o : DeclOutline, o.Regular ∧ o.name = d.id.name ∧
      o.keyword :: o.heading = d.keyword :: d.heading)
    (hread : ∀ d ∈ ds, (Shape.declaration? d.written).isSome = true) :
    let os := (ds.map Declaration.written).filterMap fun items => (Shape.declaration? items).join
    os.map DeclOutline.written = ds.map Declaration.written ∧
      os.map DeclOutline.name = ds.map (·.id.name) ∧ (∀ o ∈ os, o.isMacro = false) ∧
      ∀ o ∈ os, Shape.declaration? o.written = some (some o) := by
  induction ds with
  | nil => simp
  | cons d rest ih =>
    rw [forall_mem_cons] at hheads hread
    obtain ⟨⟨o, hregular, hname, hheading⟩, hheads⟩ := hheads
    obtain ⟨reading, hreading⟩ := isSome_iff_exists.mp hread.1
    have hwritten :
        d.written = (o.keyword :: o.heading).map .atom ++ Value.writtenAll d.values := by
      rw [hheading]
      rfl
    obtain ⟨o', rfl, hplain, hname', hwritten'⟩ :=
      Shape.declaration?_of_heading hregular (hwritten ▸ hreading)
    obtain ⟨hws, hns, hps, hrs⟩ := ih hheads hread.2
    rw [← hwritten] at hwritten'
    simp only [map_cons, filterMap_cons, hreading, join_some, forall_mem_cons]
    exact ⟨by rw [hwritten', hws], by rw [hname', hname, hns], ⟨hplain, hps⟩,
      ⟨by rw [hwritten', hreading], hrs⟩⟩

/-- Headings stay regular when a loaded program is lowered. -/
theorem Alike.headed {p p' : Program} (h : Alike p p')
    (hp : ∀ d ∈ p.all, d.isMacro = false → (d.outline fun _ => none).Regular) {d' : Declaration}
    (hd' : d' ∈ p'.all) (hm : d'.isMacro = false) :
    ∃ o : DeclOutline, o.Regular ∧ o.name = d'.id.name ∧
      o.keyword :: o.heading = d'.keyword :: d'.heading := by
  obtain ⟨d, hd, hid, hheading, hmacros⟩ := h.heading_eq hd'
  refine ⟨d.outline fun _ => none, hp d hd (hmacros.trans hm), ?_, ?_⟩
  · rw [DeclOutline.name_outline, hid]
  · rw [Declaration.keyword_outline, Declaration.heading_outline, hheading,
      Declaration.keyword_eq_of_id hid]

/-- **What is printed is the text of stable declarations** exactly if it has readings that call no
global, provided that no text begins with a quote. -/
theorem stable_iff_rereads {p : Program} (hp : p.Tidy) (hl : p.Legible)
    (hheads : ∀ d ∈ p.all, d.isMacro = false → ∃ o : DeclOutline, o.Regular ∧
      o.name = d.id.name ∧ o.keyword :: o.heading = d.keyword :: d.heading)
    (hplain : ∀ x ∈ formLexemes p.written, ¬ x.StartsQuote) (layout : Layout) :
    (∃ ds, DeclOutline.Stable ds ∧
        renderForms layout (ds.map DeclOutline.written) = p.print layout) ↔ p.Rereads := by
  have hatoms : ∀ t, Lexeme.atom t ∈ formLexemes p.written → t.Readable ∧ ¬ t.StartsQuote :=
    fun t ht => ⟨hl.readable hp t ht, fun hq => hplain _ ht ⟨t, rfl, hq⟩⟩
  rw [print_eq_renderForms]
  constructor
  · rintro ⟨ds, hs, htext⟩
    have hwritten := Shape.renderForms_injective layout hs.atoms hatoms htext
    have hreadings : p.readings = ds := by
      rw [readings, ← hwritten, filterMap_map]
      refine (filterMap_congr fun o ho => ?_).trans filterMap_some
      rw [Function.comp_apply, hs.reread o ho, join_some]
    refine ⟨fun items hitems => ?_, hreadings ▸ hs.calls⟩
    rw [← hwritten] at hitems
    obtain ⟨o, ho, rfl⟩ := List.mem_map.mp hitems
    rw [hs.reread o ho, isSome_some]
  · rintro ⟨hread, hcalls⟩
    have hsub : (p.declarations.filter (!·.isMacro)).Sublist p.declarations := filter_sublist
    obtain ⟨hwritten, hnames, hmacros, hreread⟩ := readings_spec
      (fun d hd => hheads d (hp.mem_declarations.mp (hsub.subset hd)).1
        (by simpa using (mem_filter.mp hd).2))
      fun d hd => hread _ (List.mem_map_of_mem hd)
    have hdistinct : (p.declarations.map (·.id.name)).Nodup := by
      have hentries := hp.names
      rwa [Table.names, ← hp.map_id_declarations, List.map_map] at hentries
    refine ⟨p.readings, ⟨hmacros, hreread, ?_, hcalls, ?_⟩, congrArg _ hwritten⟩
    · rw [readings, written, hnames]
      exact hdistinct.sublist (hsub.map _)
    · rw [readings, written, hwritten]
      exact hatoms

end Program

/-! ## 4. Compiling output -/

namespace Compilation

/-- What a compilation without an error consists of. -/
theorem compile_ok {lib : Library} {options : CompileOptions} {name : Text} {entry : Entry}
    (hok : (compile lib options name entry).ok = true) :
    let loaded := load {} {} lib entry
    let lowered := loaded.program.lower loaded.report options.passes options.maxExpansions
    loaded.ok = true ∧ lowered.report.hasErrors = false ∧
      (compile lib options name entry).program = lowered.program ∧
      (compile lib options name entry).output = lowered.program.print options.layout := by
  unfold compile ok at hok
  unfold compile
  dsimp only at hok ⊢
  split at hok
  · next hloaded =>
    have herrors := by simpa using hok
    rw [if_pos hloaded]
    exact ⟨hloaded, herrors, rfl, by rw [herrors]; rfl⟩
  · next hloaded => exact absurd hok hloaded

/-- Without lowering steps, compiling is loading and printing. -/
theorem compile_none_iff (lib : Library) (limit : Int64) (layout : Layout) (name : Text)
    (entry : Entry) (text : Text) :
    let c := compile lib ⟨.none, limit, layout⟩ name entry
    let loaded := load {} {} lib entry
    (c.ok = true ∧ c.output = text) ↔ loaded.ok = true ∧ loaded.program.print layout = text := by
  intro c loaded
  have hlower : loaded.program.lower loaded.report .none limit =
      ⟨loaded.program, loaded.report, []⟩ := rfl
  constructor
  · rintro ⟨hok, htext⟩
    obtain ⟨hloaded, -, -, houtput⟩ := compile_ok hok
    have houtput : c.output =
        (loaded.program.lower loaded.report .none limit).program.print layout := houtput
    rw [hlower] at houtput
    exact ⟨hloaded, houtput.symm.trans htext⟩
  · rintro ⟨hloaded, htext⟩
    have herrors : loaded.report.hasErrors = false := by simpa [Loaded.ok] using hloaded
    have hc : c.ok = true ∧ c.output = loaded.program.print layout := by
      simp only [c, compile, ok]
      rw [if_pos hloaded, hlower]
      simp [herrors]
    exact ⟨hc.1, hc.2.trans htext⟩

/-- **Output that reads back.**  Whatever the library, the steps that were selected and the layout:
the output of a compilation without an error is compiled again, with no lowering steps, to itself
and without an error exactly if it is the text of declarations that can be read.  If no text of the
lowered program begins with a quote, this is so exactly if the declarations that were printed have
readings that call no global. -/
theorem reads_back_iff (lib lib' : Library) (options : CompileOptions) (name name' : Text)
    (entry : Entry) (limit : Int64) (hok : (compile lib options name entry).ok = true) :
    let c := compile lib options name entry
    let again := compileSource lib' ⟨.none, limit, options.layout⟩ name' c.output
    ((again.ok = true ∧ again.output = c.output) ↔
        ∃ ds, DeclOutline.Stable ds ∧
          Shape.renderForms options.layout (ds.map DeclOutline.written) = c.output) ∧
      ((∀ x ∈ Lexer.formLexemes c.program.written, ¬ x.StartsQuote) →
        ((again.ok = true ∧ again.output = c.output) ↔ c.program.Rereads)) := by
  intro c again
  have hagain : (again.ok = true ∧ again.output = c.output) ↔
      ∃ ds, DeclOutline.Stable ds ∧
        Shape.renderForms options.layout (ds.map DeclOutline.written) = c.output := by
    have hnone :=
      compile_none_iff lib' limit options.layout name' (.source ⟨name', c.output⟩) c.output
    refine hnone.trans ?_
    constructor
    · rintro ⟨hloaded, hprint⟩
      exact DeclOutline.stable_of_reload hloaded hprint
    · rintro ⟨ds, hs, htext⟩
      rw [← htext]
      exact hs.reload lib' name' options.layout
  refine ⟨hagain, fun hplain => hagain.trans ?_⟩
  obtain ⟨hloaded, herrors, hprogram, houtput⟩ := compile_ok hok
  obtain ⟨hlegible, hregular⟩ := Program.load_readable hloaded
  obtain ⟨htidy, halike, hlegible'⟩ := Program.lower_legible options.passes
    (Program.load_tidy Program.tidy_empty {} lib entry) hlegible
    (Program.load_anchored {} lib entry)
  rw [show c.program = _ from hprogram] at hplain ⊢
  rw [show c.output = _ from houtput]
  exact Program.stable_iff_rereads htidy hlegible' (fun d hd hm => halike.headed hregular hd hm)
    hplain options.layout

/-- A macro that stands for a call. -/
def callSample : Entry :=
  .source ⟨"a", "(script macro s m(s x)(g x))(script startup f(m 5)(h))"⟩

/-- A macro that stands for an atom, called where only the last element may be one. -/
def spliceSample : Entry := .source ⟨"a", "(script macro s m()5)(script startup f(m)(g))"⟩

set_option maxRecDepth 20000 in
/-- Both cases occur: one program is compiled to the same text again, and another is not. -/
theorem reads_back_samples :
    let c := compile {} {} "a" callSample
    let again := compileSource {} ⟨.none, 0, .compact⟩ "b" c.output
    let spliced := compile {} {} "a" spliceSample
    let again' := compileSource {} ⟨.none, 0, .compact⟩ "b" spliced.output
    (c.ok = true ∧ again.ok = true ∧ again.output = c.output) ∧
      spliced.ok = true ∧ ¬ (again'.ok = true ∧ again'.output = spliced.output) := by
  -- one evaluation of each source settles whether it compiles and whether it has readings
  have hcall : (fun c : Compilation => c.ok &&
      decide (∀ x ∈ Lexer.formLexemes c.program.written, ¬ x.StartsQuote) &&
      decide c.program.Rereads) (compile {} {} "a" callSample) = true := by cbv
  have hsplice : (fun c : Compilation => c.ok &&
      decide (∀ x ∈ Lexer.formLexemes c.program.written, ¬ x.StartsQuote) &&
      !decide c.program.Rereads) (compile {} {} "a" spliceSample) = true := by cbv
  simp only [and_eq_true, decide_eq_true_eq, not_eq_true', decide_eq_false_iff_not]
    at hcall hsplice
  obtain ⟨⟨hok, hplain⟩, hreads⟩ := hcall
  obtain ⟨⟨hok', hplain'⟩, hreads'⟩ := hsplice
  exact ⟨⟨hok, ((reads_back_iff {} {} {} "a" "b" callSample 0 hok).2 hplain).mpr hreads⟩, hok',
    fun hsame =>
      hreads' (((reads_back_iff {} {} {} "a" "b" spliceSample 0 hok').2 hplain').mp hsame)⟩

end Compilation

end HaloScript
