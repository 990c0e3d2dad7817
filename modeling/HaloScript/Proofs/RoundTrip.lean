/-
# Printing and reading back

A program that was loaded without an error and has no macro is printed, and the text is loaded
again.  The two programs have the same outline exactly if no atom of the first begins with a
quote (`Program.reload_iff`).

The reason for the exception is the scanner: a quote opens a quoted atom unless a closing bracket
stands right before it, and only there an atom can begin with one.  The printer separates such an
atom by a blank from the bracket, and the scanner then takes the quote for an opening one.

The hard direction is that the text cannot be read back by chance.  The scan of the printed text
first goes wrong at an atom, so the forms that are read part from those that were printed at this
atom and agree before it (`Shape.Splits`).  The atom is not in the heading of its declaration,
because there it would not follow a bracket; so a declaration of the same heading is read, with
another value.  What is read later can replace it only if it is a stub, and by a static script
only, which is a difference again (`Draft.listed_ne_of_splits`).

Samples are evaluated by `cbv`, which needs equations that only the whole library has.
-/
import HaloScript.Proofs.Scanning.Printed
import HaloScript.Proofs.Sources
import Mathlib

namespace HaloScript

open List Option Outline DeclOutline Shape

/-! ## 1. Atoms that are words -/

def Leaf.atom? : Leaf → Option Text
  | .atom t => some t
  | _ => none

namespace Outline

mutual

/-- The atoms of an outline that are linked to nothing. -/
def words : Outline → List Text
  | .leaf (some t) .word => [t]
  | .leaf _ _ => []
  | .call _ _ _ args => wordsAll args

def wordsAll : List Outline → List Text
  | [] => []
  | o :: rest => words o ++ wordsAll rest

end

mutual

theorem mem_words_link {dir : Directory} {t : Text} (ht : dir t = none) (o : Outline)
    (h : t ∈ o.words) : t ∈ (o.link dir).words := by
  match o with
  | .leaf none l => cases l <;> simp [words] at h
  | .leaf (some u) (.declared k) => simp [words] at h
  | .leaf (some u) .word =>
    obtain rfl : t = u := by simpa [words] using h
    simp [link, Link.ofLeaf, ht, words]
  | .call f l clause args =>
    have ih := mem_wordsAll_linkAll ht args h
    cases l <;> cases clause <;> exact ih

theorem mem_wordsAll_linkAll {dir : Directory} {t : Text} (ht : dir t = none) (os : List Outline)
    (h : t ∈ wordsAll os) : t ∈ wordsAll (linkAll dir os) := by
  match os with
  | o :: rest =>
    rw [linkAll, wordsAll, mem_append]
    rcases mem_append.mp h with h | h
    · exact .inl (mem_words_link ht o h)
    · exact .inr (mem_wordsAll_linkAll ht rest h)

end

end Outline

namespace Value

mutual

theorem mem_words_outline (place : DeclId → Option Nat) {t : Text} (v : Value) :
    t ∈ (v.outline place).words ↔ Leaf.atom t ∈ v.leaves := by
  match v with
  | .leaf tag l => cases l <;> simp [outline, Leaf.outline, words, leaves]
  | .call tag h args =>
    rw [outline, words, leaves]
    exact mem_wordsAll_outlineAll place args

theorem mem_wordsAll_outlineAll (place : DeclId → Option Nat) {t : Text} (vs : List Value) :
    t ∈ wordsAll (outlineAll place vs) ↔ Leaf.atom t ∈ leavesAll vs := by
  match vs with
  | [] => simp [outlineAll, wordsAll, leavesAll]
  | v :: rest =>
    rw [outlineAll, wordsAll, leavesAll, mem_append, mem_append,
      mem_words_outline place v, mem_wordsAll_outlineAll place rest]

end

mutual

theorem mem_lexemes_written {t : Text} (v : Value) (h : Leaf.atom t ∈ v.leaves) :
    Lexeme.atom t ∈ lexemesAll v.written := by
  match v with
  | .leaf tag l =>
    obtain rfl : Leaf.atom t = l := by simpa [leaves] using h
    simp [written, Leaf.text?, lexemesAll, lexemes]
  | .call tag hd args =>
    have ih := mem_lexemes_writtenAll args h
    simp [written, lexemesAll, lexemes, lexemesAll_append, ih]

theorem mem_lexemes_writtenAll {t : Text} (vs : List Value) (h : Leaf.atom t ∈ leavesAll vs) :
    Lexeme.atom t ∈ lexemesAll (writtenAll vs) := by
  match vs with
  | v :: rest =>
    rw [writtenAll, lexemesAll_append, mem_append]
    rcases mem_append.mp h with h | h
    · exact .inl (mem_lexemes_written v h)
    · exact .inr (mem_lexemes_writtenAll rest h)

end

end Value

namespace Lexeme

theorem Ordered.drop {xs ys : List Lexeme} : ∀ {before : Option Lexeme},
    Ordered before (xs ++ ys) → ∃ before', Ordered before' ys := by
  induction xs with
  | nil => exact fun {before} h => ⟨before, h⟩
  | cons x rest ih => exact fun h => ih h.2

end Lexeme

namespace Shape

mutual

/-- In a value from a file only a word can begin with a quote, and no function name. -/
theorem value?_words {inCond : Bool} {x : Shape} {o : Outline} {before : Option Lexeme}
    (h : x.value? inCond = some o) (hx : Lexeme.Ordered before x.lexemes) {t : Text}
    (ht : Lexeme.atom t ∈ x.lexemes) (hq : t.StartsQuote) : t ∈ o.words := by
  match x with
  | .atom u =>
    rw [value?, some_inj] at h
    subst h
    simpa [lexemes, words] using ht
  | .list [] => simp [value?] at h
  | .list (first :: rest) =>
    have hin : Lexeme.atom t ∈ lexemesAll (first :: rest) := by simpa [lexemes] using ht
    have hord : Lexeme.Ordered (some .opening) (lexemesAll (first :: rest)) := hx.2.of_append
    rw [value?] at h
    split at h
    · obtain ⟨args, hargs, rfl⟩ := map_eq_some_iff.mp h
      exact values?_words hargs hord hin hq
    · obtain ⟨name, hname, h⟩ := bind_eq_some_iff.mp h
      obtain ⟨args, hargs, rfl⟩ := map_eq_some_iff.mp h
      cases first with
      | list => simp [text?] at hname
      | atom u =>
        rcases mem_cons.mp hin with heq | hin
        · obtain rfl : t = u := by simpa using heq
          exact absurd (hord.1 ⟨t, rfl, hq⟩) (by simp)
        · exact values?_words hargs hord.2 hin hq

theorem values?_words {inCond : Bool} {xs : List Shape} {os : List Outline}
    {before : Option Lexeme} (h : values? inCond xs = some os)
    (hxs : Lexeme.Ordered before (lexemesAll xs)) {t : Text} (ht : Lexeme.atom t ∈ lexemesAll xs)
    (hq : t.StartsQuote) : t ∈ wordsAll os := by
  match xs with
  | [] => simp [lexemesAll] at ht
  | x :: rest =>
    rw [values?] at h
    obtain ⟨v, hv, h⟩ := bind_eq_some_iff.mp h
    obtain ⟨vs, hvs, rfl⟩ := map_eq_some_iff.mp h
    rw [lexemesAll] at hxs ht
    obtain ⟨before', hrest⟩ := hxs.drop
    rw [wordsAll, mem_append]
    rcases mem_append.mp ht with ht | ht
    · exact .inl (value?_words hv hxs.of_append ht hq)
    · exact .inr (values?_words hvs hrest ht hq)

end

/-- An atom of a body that begins with a quote is a word of the outline.  The lexemes have to be in
an order that a scan produces, where such an atom follows a closing bracket: then it is no name that
is called. -/
theorem body?_words : ∀ {xs : List Shape} {os : List Outline} {before : Option Lexeme},
    body? xs = some os → Lexeme.Ordered before (lexemesAll xs) → ∀ {t : Text},
    Lexeme.atom t ∈ lexemesAll xs → t.StartsQuote → t ∈ wordsAll os
  | [], os, before, _, _, t, ht, _ => by simp [lexemesAll] at ht
  | [x], os, before, h, hxs, t, ht, hq => by
    rw [body?] at h
    obtain ⟨v, hv, rfl⟩ := map_eq_some_iff.mp h
    simp only [lexemesAll, append_nil] at hxs ht
    simpa [wordsAll] using value?_words hv hxs ht hq
  | .atom _ :: _ :: _, os, before, h, _, t, _, _ => by simp [body?] at h
  | .list items :: y :: rest, os, before, h, hxs, t, ht, hq => by
    rw [body?] at h
    obtain ⟨v, hv, h⟩ := bind_eq_some_iff.mp h
    obtain ⟨vs, hvs, rfl⟩ := map_eq_some_iff.mp h
    rw [lexemesAll] at hxs ht
    obtain ⟨before', hrest⟩ := hxs.drop
    rw [wordsAll, mem_append]
    rcases mem_append.mp ht with ht | ht
    · exact .inl (value?_words hv hxs.of_append ht hq)
    · exact .inr (body?_words hvs hrest ht hq)

end Shape

/-! ## 2. Declarations that can be printed -/

namespace DeclOutline

variable {d : DeclOutline}

theorem strip_eq (h : stripAll d.values = d.values) : d.strip = d := by
  cases d with
  | global type name value =>
    have hvalue : value.strip = value := by simpa [values, stripAll] using h
    rw [strip, hvalue]
  | script kind returnType name params body => rw [strip, show stripAll body = body from h]

theorem map_strip_link (dir : Directory) {ds : List DeclOutline} (h : ∀ o ∈ ds, o.strip = o) :
    (ds.map (link dir)).map strip = ds := by
  rw [List.map_map]
  conv_rhs => rw [← List.map_id ds]
  exact map_congr_left fun o ho => (o.strip_link dir).trans (h o ho)

/-- A declaration that is read from what is written for it, with atoms the printer can write.
Only a word among its values may begin with a quote. -/
structure Legible (d : DeclOutline) : Prop where
  regular : d.Regular
  reread : Shape.declaration? d.written = some (some d)
  body : Shape.body? (writtenAll d.values) = some d.values
  readable : ∀ t, Lexeme.atom t ∈ lexemesAll d.written → t.Readable
  heading : ∀ t ∈ d.keyword :: d.heading, ¬ t.StartsQuote
  words : ∀ t, Lexeme.atom t ∈ lexemesAll (writtenAll d.values) → t.StartsQuote →
    t ∈ wordsAll d.values

theorem Legible.isMacro_eq (h : d.Legible) : d.isMacro = false := by
  cases d with
  | global => rfl
  | script kind =>
    have hkind : kind ≠ .macroScript := h.regular.2.1
    simpa [isMacro] using hkind

theorem keyword_readable (d : DeclOutline) : d.keyword.Readable ∧ ¬ d.keyword.StartsQuote := by
  have hword : ∀ t : Text, Printer.needsQuotes t = false → Text.carriageReturn ∉ t →
      t.Readable := by
    intro t hq hcr
    unfold Text.Readable
    rw [hq, if_neg Bool.false_ne_true]
    exact hcr
  cases d with
  | global =>
    have hquote : ¬ Text.StartsQuote "global" := by decide
    exact ⟨hword "global" (by decide) (by decide), hquote⟩
  | script =>
    have hquote : ¬ Text.StartsQuote "script" := by decide
    exact ⟨hword "script" (by decide) (by decide), hquote⟩

/-- What a form from a file declares can be printed, unless it is a macro. -/
theorem legible_of_sourced {f : Form} (hf : f.Sourced)
    (h : Shape.declaration? (Form.shapes f.items) = some (some d)) (hd : d.isMacro = false) :
    d.Legible := by
  obtain ⟨hregular, hbody, word, hitems⟩ := declaration?_written h hd
  obtain ⟨hkeyword, hquote⟩ := d.keyword_readable
  have hread := hf.readable
  have hord := hf.ordered
  have hlexemes : lexemesAll (Form.shapes f.items) = (word :: d.heading).map .atom ++
      lexemesAll (writtenAll d.values) := by
    rw [hitems, ← cons_append, ← map_cons, lexemesAll_append,
      lexemesAll_map_atom]
  rw [hlexemes] at hread hord
  refine ⟨hregular, Shape.declaration?_self h hd, hbody, fun t ht => ?_, ?_, fun t ht hq => ?_⟩
  · rw [written, lexemesAll_append, lexemesAll_map_atom] at ht
    rcases mem_append.mp ht with ht | ht
    · rcases List.mem_map.mp ht with ⟨u, hu, hut⟩
      obtain rfl : u = t := by simpa using hut
      rcases mem_cons.mp hu with rfl | hu
      · exact hkeyword
      · exact hread u (by simp [hu])
    · exact hread t (by simp [ht])
  · have hwords := hord.words (by simp)
    rw [forall_mem_cons] at hwords ⊢
    exact ⟨hquote, hwords.2⟩
  · obtain ⟨before, hvalues⟩ := hord.drop
    exact Shape.body?_words hbody hvalues ht hq

end DeclOutline

namespace Draft

variable {new : DeclOutline}

/-- What is listed was entered. -/
theorem listed_subset_enter? {d d' : Draft} (hd : ∀ o ∈ d.listed, o ∈ d.entered)
    (h : d.enter? new = some d') :
    (∀ o ∈ d'.listed, o ∈ d'.entered) ∧ ∀ o ∈ d'.entered, o = new ∨ o ∈ d.entered := by
  have henter : (∀ o ∈ (d.enter new).listed, o ∈ (d.enter new).entered) ∧
      ∀ o ∈ (d.enter new).entered, o = new ∨ o ∈ d.entered := by
    refine ⟨fun o ho => ?_, fun o ho => mem_cons.mp ho⟩
    rcases mem_insertNamed ho with rfl | ho
    · exact mem_cons_self
    · exact mem_cons_of_mem _ (hd o ho)
  unfold enter? at h
  split at h
  · exact some.inj h ▸ henter
  · obtain ⟨a, -, rfl⟩ := map_eq_some_iff.mp h
    cases a with
    | enter => exact henter
    | ignore => exact ⟨hd, fun o ho => .inr ho⟩

/-- Every declaration of a draft was made by one of the forms. -/
theorem forms?_origin {fs : List (List Shape)} : ∀ {d d' : Draft},
    (∀ o ∈ d.listed, o ∈ d.entered) → d.forms? fs = some d' →
    (∀ o ∈ d'.listed, o ∈ d'.entered) ∧
      ∀ o ∈ d'.entered, o ∈ d.entered ∨ ∃ items ∈ fs, Shape.declaration? items = some (some o) := by
  induction fs with
  | nil =>
    intro d d' hd h
    rw [forms?, some_inj] at h
    exact h ▸ ⟨hd, fun o ho => .inl ho⟩
  | cons items rest ih =>
    intro d d' hd h
    rw [forms?] at h
    obtain ⟨d₁, hform, hrest⟩ := bind_eq_some_iff.mp h
    rw [form?] at hform
    obtain ⟨reading, hreading, hform⟩ := bind_eq_some_iff.mp hform
    have hstep : (∀ o ∈ d₁.listed, o ∈ d₁.entered) ∧
        ∀ o ∈ d₁.entered, reading = some o ∨ o ∈ d.entered := by
      cases reading with
      | none =>
        rw [← some.inj hform]
        exact ⟨hd, fun o ho => .inr ho⟩
      | some =>
        obtain ⟨hlisted, hentered⟩ := listed_subset_enter? hd hform
        exact ⟨hlisted, fun o ho => (hentered o ho).imp_left fun heq => congrArg some heq.symm⟩
    obtain ⟨hlisted, hentered⟩ := ih hstep.1 hrest
    refine ⟨hlisted, fun o ho => ?_⟩
    rcases hentered o ho with ho | ⟨items', hmem, hitems'⟩
    · rcases hstep.2 o ho with rfl | ho
      · exact .inr ⟨items, mem_cons_self, hreading⟩
      · exact .inl ho
    · exact .inr ⟨items', mem_cons_of_mem _ hmem, hitems'⟩

theorem enter?_of_new {d : Draft} (h : ∀ o ∈ d.listed, o.name ≠ new.name) :
    d.enter? new = some ⟨d.listed ++ [new], new :: d.entered⟩ := by
  have hfind : d.listed.find? (·.name == new.name) = none := by
    rw [find?_eq_none]
    exact fun o ho => by simpa using h o ho
  rw [enter?, hfind, enter, insertNamed_of_new h]

theorem form?_eq {d : Draft} {items : List Shape} (h : Shape.declaration? items = some (some new)) :
    d.form? items = d.enter? new := by
  rw [form?, h]
  rfl

theorem ne_name_of_nodup {listed rest : List DeclOutline} {o : DeclOutline}
    (hnames : ((listed ++ o :: rest).map DeclOutline.name).Nodup) :
    ∀ o' ∈ listed, o'.name ≠ o.name := by
  intro o' ho' heq
  rw [map_append, map_cons, nodup_append] at hnames
  exact hnames.2.2 _ (List.mem_map_of_mem ho') _ mem_cons_self heq

/-- **Reading what was written:** declarations of distinct names are declared again. -/
theorem forms?_written {ds : List DeclOutline} : ∀ {d : Draft},
    (∀ o ∈ ds, Shape.declaration? o.written = some (some o)) →
    ((d.listed ++ ds).map DeclOutline.name).Nodup →
    d.forms? (ds.map DeclOutline.written) = some ⟨d.listed ++ ds, ds.reverse ++ d.entered⟩ := by
  induction ds with
  | nil => intro d _ _; simp [forms?]
  | cons o rest ih =>
    intro d hread hnames
    rw [forall_mem_cons] at hread
    have hnew := ne_name_of_nodup hnames
    rw [map_cons, forms?, form?_eq hread.1, enter?_of_new hnew, bind_some,
      ih hread.2 (by simpa using hnames)]
    simp

end Draft

/-! ## 3. Forms that part from what was printed -/

namespace Shape

theorem Splits.ne {t u : Text} {xs ys : List Shape} (hne : t ≠ u) (h : Splits t u xs ys) :
    xs ≠ ys := by
  induction h with
  | here => simp [hne]
  | inside h xs' ys' ih => simp [ih]
  | later x h ih => simp [ih]

theorem Splits.of_words {t u : Text} {ws : List Text} (hws : u ∉ ws) : ∀ {xs ys : List Shape},
    Splits t u xs (ws.map .atom ++ ys) → ∃ xs', xs = ws.map .atom ++ xs' ∧ Splits t u xs' ys := by
  induction ws with
  | nil => exact fun {xs ys} h => ⟨xs, rfl, h⟩
  | cons w rest ih =>
    intro xs ys h
    rw [mem_cons, not_or] at hws
    rw [map_cons, cons_append] at h
    generalize hzs : rest.map Shape.atom ++ ys = zs at h
    cases h with
    | here => exact absurd rfl hws.1
    | later _ h =>
      subst hzs
      obtain ⟨xs', rfl, hsplits⟩ := ih hws.2 h
      exact ⟨xs', rfl, hsplits⟩

end Shape

namespace DeclOutline

def kind? : DeclOutline → Option ScriptKind
  | .global _ _ _ => none
  | .script kind _ _ _ _ => some kind

theorem kind?_eq_of_frame {d d' : DeclOutline} (h : d.frame = d'.frame) : d.kind? = d'.kind? := by
  cases d <;> cases d' <;> simp_all [frame, kind?]

/-- What a declaration of the table can turn into: itself, or a static script if it is a stub. -/
def Becomes (o o' : DeclOutline) : Prop :=
  o' = o ∨ (o.kind? = some .stub ∧ o'.kind? = some .static)

theorem Becomes.trans {o o' o'' : DeclOutline} (h : o.Becomes o') (h' : o'.Becomes o'') :
    o.Becomes o'' := by
  rcases h with rfl | ⟨hstub, hstatic⟩
  · exact h'
  · rcases h' with rfl | ⟨hstub', -⟩
    · exact .inr ⟨hstub, hstatic⟩
    · exact absurd (hstatic.symm.trans hstub') (by decide)

theorem Becomes.isMacro {o o' : DeclOutline} (h : o.Becomes o') (ho : o.isMacro = false) :
    o'.isMacro = false := by
  rcases h with rfl | ⟨-, hstatic⟩
  · exact ho
  · cases o' with
    | global => rfl
    | script kind =>
      obtain rfl : kind = .static := by simpa [kind?] using hstatic
      rfl

/-- What may stand beside what: a stub and a static script. -/
theorem kind?_of_admit? {old new : DeclOutline} {a : Admission} (h : old.admit? new = some a) :
    (a = .enter ∧ old.kind? = some .stub ∧ new.kind? = some .static) ∨
      (a = .ignore ∧ old.kind? = some .static ∧ new.kind? = some .stub) := by
  cases old with
  | global => simp [admit?] at h
  | script =>
    cases new with
    | global => simp [admit?] at h
    | script kind =>
      rw [admit?] at h
      split at h
      · exact absurd h (by simp)
      · split at h
        · next hk => exact .inr ⟨(some.inj h).symm, by simp [kind?, hk.2], by simp [kind?, hk.1]⟩
        · split at h
          · next hk =>
            exact .inl ⟨(some.inj h).symm, by simp [kind?, hk.2], by simp [kind?, hk.1]⟩
          · exact absurd h (by simp)

theorem becomes_of_admit? {old new : DeclOutline} (h : old.admit? new = some .enter) :
    old.Becomes new := by
  obtain ⟨-, hkinds⟩ | ⟨heq, -⟩ := kind?_of_admit? h
  · exact .inr hkinds
  · cases heq

end DeclOutline

/-- An insertion leaves every element in its place, except the one it replaces. -/
theorem getElem?_insertNamed {α : Type} (name : α → Text) (new : α) {xs : List α} :
    ∀ {k : Nat} {x : α}, xs[k]? = some x → (insertNamed name new xs)[k]? = some x ∨
      ((insertNamed name new xs)[k]? = some new ∧ xs.find? (name · == name new) = some x) := by
  induction xs with
  | nil => intro k x h; simp at h
  | cons y rest ih =>
    intro k x h
    rw [insertNamed]
    by_cases hy : name y == name new
    · rw [if_pos hy]
      cases k with
      | zero => exact .inr ⟨rfl, by simpa [hy] using h⟩
      | succ => exact .inl h
    · rw [if_neg hy]
      cases k with
      | zero => exact .inl h
      | succ k => exact (ih (k := k) h).imp id fun hk => ⟨hk.1, by simpa [hy] using hk.2⟩

namespace Draft

/-- A declaration that is listed stays where it is.  A later one can only take the place of a
stub. -/
theorem enter?_becomes {d d' : Draft} {new o : DeclOutline} {k : Nat} (h : d.enter? new = some d')
    (ho : d.listed[k]? = some o) : ∃ o', d'.listed[k]? = some o' ∧ o.Becomes o' := by
  unfold enter? at h
  split at h
  · next hfind =>
    rw [← some.inj h]
    rcases getElem?_insertNamed DeclOutline.name new ho with hk | ⟨-, hx⟩
    · exact ⟨o, hk, .inl rfl⟩
    · exact absurd (hfind.symm.trans hx) (by simp)
  · next old hfind =>
    obtain ⟨a, ha, rfl⟩ := map_eq_some_iff.mp h
    cases a with
    | ignore => exact ⟨o, ho, .inl rfl⟩
    | enter =>
      rcases getElem?_insertNamed DeclOutline.name new ho with hk | ⟨hk, hx⟩
      · exact ⟨o, hk, .inl rfl⟩
      · obtain rfl : old = o := some.inj (hfind.symm.trans hx)
        exact ⟨new, hk, DeclOutline.becomes_of_admit? ha⟩

/-- No declaration leaves its place, and only a stub is replaced. -/
theorem forms?_becomes {fs : List (List Shape)} : ∀ {d d' : Draft} {o : DeclOutline} {k : Nat},
    d.forms? fs = some d' → d.listed[k]? = some o →
    ∃ o', d'.listed[k]? = some o' ∧ o.Becomes o' := by
  induction fs with
  | nil =>
    intro d d' o k h ho
    rw [forms?, some_inj] at h
    exact ⟨o, h ▸ ho, .inl rfl⟩
  | cons items rest ih =>
    intro d d' o k h ho
    rw [forms?] at h
    obtain ⟨d₁, hform, hrest⟩ := bind_eq_some_iff.mp h
    rw [form?] at hform
    obtain ⟨reading, -, hform⟩ := bind_eq_some_iff.mp hform
    have hstep : ∃ o', d₁.listed[k]? = some o' ∧ o.Becomes o' := by
      cases reading with
      | none => exact ⟨o, some.inj hform ▸ ho, .inl rfl⟩
      | some => exact enter?_becomes hform ho
    obtain ⟨o₁, ho₁, hbecomes⟩ := hstep
    obtain ⟨o', ho', hlater⟩ := ih hrest ho₁
    exact ⟨o', ho', hbecomes.trans hlater⟩

/-- **Forms that part from printed ones at an atom that begins with a quote** declare something
else, macros not counted.  By induction on the printed declarations: up to the place in question
both are alike. -/
theorem listed_ne_of_splits {t u : Text} (ht : ¬ t.StartsQuote) (hu : u.StartsQuote)
    {ds : List DeclOutline} : ∀ {fs more : List (List Shape)} {d d' : Draft},
    Splits t u (fs.map .list) ((ds.map DeclOutline.written).map .list) →
    (∀ o ∈ ds, o.Legible) → ((d.listed ++ ds).map DeclOutline.name).Nodup →
    (∀ o ∈ d.listed, o.isMacro = false) → d.forms? (fs ++ more) = some d' →
    d'.listed.filter (!·.isMacro) ≠ d.listed ++ ds := by
  induction ds with
  | nil =>
    intro fs more d d' hsplits
    cases fs <;> cases hsplits
  | cons o rest ih =>
    intro fs more d d' hsplits hlegible hnames hmacros hforms hlisted
    rw [forall_mem_cons] at hlegible
    have hnew := ne_name_of_nodup hnames
    cases fs with
    | nil => cases hsplits
    | cons =>
      rw [cons_append, forms?] at hforms
      obtain ⟨d₁, hform, hrest⟩ := bind_eq_some_iff.mp hforms
      rw [map_cons, map_cons, map_cons] at hsplits
      cases hsplits with
      | later _ hsplits =>
        rw [form?_eq hlegible.1.reread, enter?_of_new hnew, some_inj] at hform
        subst hform
        refine ih hsplits hlegible.2 (by simpa using hnames) (fun x hx => ?_) hrest
          (by simpa using hlisted)
        rcases mem_append.mp hx with hx | hx
        · exact hmacros x hx
        · exact mem_singleton.mp hx ▸ hlegible.1.isMacro_eq
      | inside hinside =>
        have hu' : u ∉ o.keyword :: o.heading := fun hmem => hlegible.1.heading u hmem hu
        obtain ⟨xs, rfl, -⟩ := Splits.of_words hu' hinside
        rw [form?] at hform
        obtain ⟨reading, hreading, hform⟩ := bind_eq_some_iff.mp hform
        obtain ⟨o', rfl, hframe, hplain⟩ := Shape.declaration?_frame hlegible.1.regular hreading
        -- a declaration of the same heading is read, and keeps the place
        have hname := DeclOutline.name_eq_of_frame hframe
        have hform : d.enter? o' = some d₁ := hform
        rw [enter?_of_new (fun x hx => hname ▸ hnew x hx), some_inj] at hform
        subst hform
        obtain ⟨o'', ho'', hbecomes⟩ :=
          forms?_becomes hrest (o := o') (k := d.listed.length) (by simp)
        have hkept : (d'.listed.filter (!·.isMacro))[d.listed.length]? =
            d'.listed[d.listed.length]? := by
          refine getElem?_filter fun j x hj hx => ?_
          obtain ⟨x₀, hx₀⟩ : ∃ x₀, (d.listed ++ [o'])[j]? = some x₀ :=
            ⟨_, getElem?_eq_getElem (by simp; omega)⟩
          obtain ⟨x₁, hx₁, hbecomes₁⟩ := forms?_becomes hrest hx₀
          obtain rfl : x₁ = x := some.inj (hx₁.symm.trans hx)
          have hx₀' : x₀.isMacro = false := by
            rcases mem_append.mp (mem_of_getElem? hx₀) with hmem | hmem
            · exact hmacros x₀ hmem
            · exact mem_singleton.mp hmem ▸ hplain
          simp [hbecomes₁.isMacro hx₀']
        obtain rfl : o = o'' := by
          rw [hlisted, ho''] at hkept
          simpa using hkept
        rcases hbecomes with rfl | ⟨hstub, hstatic⟩
        · obtain ⟨-, -, word, hword⟩ := declaration?_written hreading hplain
          have hne : t ≠ u := by
            rintro rfl
            exact ht hu
          refine hinside.ne hne ?_
          rw [hword, DeclOutline.written]
          rw [map_cons, cons_append, List.cons.injEq] at hword
          rw [← hword.1]
          rfl
        · rw [DeclOutline.kind?_eq_of_frame hframe, hstatic] at hstub
          exact absurd hstub (by decide)

end Draft

/-! ## 4. Loading what was printed -/

namespace DeclOutline

@[simp] theorem name_link (dir : Directory) (d : DeclOutline) : (d.link dir).name = d.name := by
  cases d <;> rfl

@[simp] theorem isMacro_link (dir : Directory) (d : DeclOutline) :
    (d.link dir).isMacro = d.isMacro := by
  cases d <;> rfl

theorem isMacro_outline (place : DeclId → Option Nat) (d : Declaration) :
    (d.outline place).isMacro = d.isMacro := by
  cases d <;> rfl

theorem name_outline (place : DeclId → Option Nat) (d : Declaration) :
    (d.outline place).name = d.id.name := by
  cases d <;> rfl

end DeclOutline

namespace Program

variable {ds : List DeclOutline} {t : Text} {p : Program}

theorem map_name_outline (hp : p.Tidy) : p.outline.map DeclOutline.name = p.table.names := by
  rw [outline, List.map_map, Table.names, ← hp.map_id_declarations, List.map_map]
  exact map_congr_left fun d _ => DeclOutline.name_outline _ d

theorem written_eq (p : Program) :
    p.written = (p.outline.filter (!·.isMacro)).map DeclOutline.written := by
  have hfilter : (fun o : DeclOutline => !o.isMacro) ∘ Declaration.outline p.place =
      fun d => !d.isMacro := by
    funext d
    rw [Function.comp_apply, isMacro_outline]
  rw [written, outline, List.filter_map, hfilter, List.map_map]
  exact map_congr_left fun d _ => (d.written_outline p.place).symm

theorem outline_plain (h : ∀ d ∈ p.declarations, d.isMacro = false) :
    ∀ o ∈ p.outline, o.isMacro = false := by
  intro o ho
  obtain ⟨d, hd, rfl⟩ := List.mem_map.mp ho
  rw [isMacro_outline, h d hd]

/-- A program that was loaded without an error consists of declarations of distinct names, linked
among themselves, and legible but for the macros. -/
theorem load_listed {lib : Library} {entry : Entry} (hok : (load {} {} lib entry).ok = true) :
    ∃ ds : List DeclOutline,
      (load {} {} lib entry).program.outline = ds.map (DeclOutline.link (directory ds)) ∧
      (∀ o ∈ ds, o.isMacro = false → o.Legible) ∧ (ds.map DeclOutline.name).Nodup ∧
      (∀ o ∈ ds, o.strip = o) ∧ ∀ o ∈ ds, o.callsGlobal (directory ds) = false := by
  obtain ⟨-, more, draft, hsourced, hforms, houtline, -, hcalls⟩ := load_drawn hok
  have htidy := load_tidy tidy_empty {} lib entry
  obtain ⟨hlisted, horigin⟩ := Draft.forms?_origin (fun o ho => absurd ho not_mem_nil) hforms
  have hread : ∀ o ∈ draft.listed, ∃ f : Form, f.Sourced ∧
      Shape.declaration? (Form.shapes f.items) = some (some o) := by
    intro o ho
    rcases horigin o (hlisted o ho) with hnil | ⟨items, hitems, hread⟩
    · exact absurd hnil not_mem_nil
    · obtain ⟨f, hf, rfl⟩ := List.mem_map.mp hitems
      exact ⟨f, hsourced f hf, hread⟩
  refine ⟨draft.listed, houtline, fun o ho hm => ?_, ?_, fun o ho => ?_, fun o ho => ?_⟩
  · obtain ⟨f, hf, hread⟩ := hread o ho
    exact DeclOutline.legible_of_sourced hf hread hm
  · have hnames := htidy.names
    rw [← map_name_outline htidy, houtline, List.map_map] at hnames
    rwa [map_congr_left fun o _ => (DeclOutline.name_link draft.directory o).symm]
  · obtain ⟨f, -, hread⟩ := hread o ho
    exact strip_eq (declaration?_strip hread)
  · rw [List.any_eq_false] at hcalls
    exact Bool.eq_false_iff.mpr (hcalls o (hlisted o ho))

theorem filter_plain_link {dir : Directory} :
    (ds.map (DeclOutline.link dir)).filter (!·.isMacro) =
      (ds.filter (!·.isMacro)).map (DeclOutline.link dir) := by
  have hfilter : (fun o : DeclOutline => !o.isMacro) ∘ DeclOutline.link dir =
      fun o => !o.isMacro := by
    funext o
    simp
  rw [List.filter_map, hfilter]

theorem map_written_link (dir : Directory) (ds : List DeclOutline) :
    (ds.map (DeclOutline.link dir)).map DeclOutline.written = ds.map DeclOutline.written := by
  rw [List.map_map]
  exact map_congr_left fun o _ => o.written_link dir

theorem formShapes_of_shapes {fs : List Form} {forms : List (List Shape)}
    (h : Form.shapes fs = forms.map .list) : formShapes fs = forms := by
  rw [Form.shapes_eq_map] at h
  have hitems : ∀ f : Form, ∀ items, f.shape = .list items → Form.shapes f.items = items := by
    intro f items hf
    cases f with
    | atom => simp [Form.shape] at hf
    | list => simpa [Form.shape, Form.items] using hf
  induction fs generalizing forms with
  | nil => simpa using h.symm
  | cons f rest ih =>
    cases forms with
    | nil => simp at h
    | cons items =>
      rw [map_cons, map_cons, List.cons.injEq] at h
      rw [formShapes, map_cons, hitems f items h.1]
      exact congrArg _ (ih h.2)

theorem shapes_of_isList {fs : List Form} (h : ∀ f ∈ fs, f.IsList) :
    Form.shapes fs = (formShapes fs).map .list := by
  rw [Form.shapes_eq_map, List.map_map]
  exact map_congr_left fun f hf => (h f hf).shape_eq

/-- A declaration that is written is no import. -/
theorem head?_of_written {f : Form} {o : DeclOutline} (h : Form.shapes f.items = o.written) :
    f.head? ≠ some ("import" : Text) := by
  have hkeyword : o.keyword ≠ ("import" : Text) := by
    cases o with
    | global => exact (by decide : ("global" : Text) ≠ "import")
    | script => exact (by decide : ("script" : Text) ≠ "import")
  rw [Form.head?]
  cases hitems : f.items with
  | nil => simp
  | cons first =>
    rw [hitems, Form.shapes, DeclOutline.written, map_cons, cons_append,
      List.cons.injEq] at h
    cases first with
    | list => simp [Form.shape] at h
    | atom s q =>
      have htext : Form.atomText s q = o.keyword := by simpa [Form.shape] using h.1
      simpa [Form.text?, htext] using hkeyword

theorem atom_mem_formLexemes {forms : List (List Shape)} :
    Lexeme.atom t ∈ Lexer.formLexemes forms ↔
      ∃ items ∈ forms, Lexeme.atom t ∈ lexemesAll items := by
  rw [Lexer.formLexemes]
  induction forms with
  | nil => simp [lexemesAll]
  | cons items rest ih => simp [lexemesAll, lexemes, ih]

section Reload

variable {ds : List DeclOutline} (hlegible : ∀ o ∈ ds, o.Legible)
  (hnames : (ds.map DeclOutline.name).Nodup) (lib : Library) (name : Text) (layout : Layout)

include hlegible

theorem readable_of_legible :
    ∀ t, Lexeme.atom t ∈ Lexer.formLexemes (ds.map DeclOutline.written) → t.Readable := by
  intro t ht
  obtain ⟨items, hitems, ht⟩ := atom_mem_formLexemes.mp ht
  obtain ⟨o, ho, rfl⟩ := List.mem_map.mp hitems
  exact (hlegible o ho).readable t ht

include hnames

/-- **Legible declarations are loaded again**, if no atom begins with a quote. -/
theorem reload_ok
    (hcalls : ∀ o ∈ ds, o.callsGlobal (directory ds) = false)
    (hplain : ∀ x ∈ Lexer.formLexemes (ds.map DeclOutline.written), ¬ x.StartsQuote) :
    let file : SourceFile := ⟨name, renderForms layout (ds.map DeclOutline.written)⟩
    (load {} {} lib (.source file)).ok = true ∧
      (load {} {} lib (.source file)).program.outline =
        ds.map (DeclOutline.link (directory ds)) := by
  intro file
  obtain ⟨hlexemes, herror⟩ := file.scan_lexemes
  rcases Lexer.run_renderForms layout (readable_of_legible hlegible) with
    ⟨-, hfound, hfailed⟩ | ⟨t, hmem, hq, -⟩
  · have hscan : file.scan.error = none := by
      rw [← not_isSome_iff_eq_none, herror, hfailed]
      exact Bool.false_ne_true
    obtain ⟨hread, hshapes⟩ := SourceFile.read_of_lexemes hscan (hlexemes.trans hfound)
    have hformShapes := formShapes_of_shapes hshapes
    have hforms := Draft.forms?_written (d := {}) (fun o ho => (hlegible o ho).reread)
      (by simpa using hnames)
    rw [← hformShapes] at hforms
    refine load_source lib hread (fun f hf => ?_) hforms ?_
    · have hmem : Form.shapes f.items ∈ formShapes file.read.forms := List.mem_map_of_mem hf
      rw [hformShapes] at hmem
      obtain ⟨o, -, ho⟩ := List.mem_map.mp hmem
      exact head?_of_written ho.symm
    · rw [List.any_eq_false]
      intro o ho
      have hmem : o ∈ ds := by simpa using ho
      exact Bool.eq_false_iff.mp (hcalls o hmem)
  · exact absurd ⟨t, rfl, hq⟩ (hplain _ hmem)

/-- **If the same declarations are loaded again**, whatever their links and with whatever macros
besides, no atom begins with a quote. -/
theorem plain_of_reload :
    let file : SourceFile := ⟨name, renderForms layout (ds.map DeclOutline.written)⟩
    (load {} {} lib (.source file)).ok = true →
      ((load {} {} lib (.source file)).program.outline.filter (!·.isMacro)).map DeclOutline.strip =
        ds →
      ∀ x ∈ Lexer.formLexemes (ds.map DeclOutline.written), ¬ x.StartsQuote := by
  intro file hok hsame
  rcases Lexer.run_renderForms layout (readable_of_legible hlegible) with
    ⟨hplain, -, -⟩ | ⟨u, -, hu, hscan⟩
  · exact hplain
  · exfalso
    obtain ⟨hstart, more, draft, -, hforms, houtline, -, -⟩ := load_drawn hok
    obtain ⟨-, hread⟩ := Intake.parse_sound hstart
    obtain ⟨herror, hlists, hread⟩ := SourceFile.read_ok hread
    obtain ⟨hlexemes, hfailed⟩ := file.scan_lexemes
    rw [herror] at hfailed
    rcases hscan with hscan | ⟨t, ht, hparts⟩
    · exact absurd (hfailed.trans hscan) (by simp)
    · rw [← hlexemes, ← hread, shapes_of_isList hlists] at hparts
      have hsplits := Shape.splits_of_parts hparts
      have hforms :
          Draft.forms? {} (formShapes file.read.forms ++ formShapes more) = some draft := by
        rw [← map_append]
        exact hforms
      refine Draft.listed_ne_of_splits ht hu hsplits hlegible (by simpa using hnames)
        (fun o ho => absurd ho not_mem_nil) hforms ?_
      -- without its links, the program has the declarations that were read
      obtain ⟨hlisted, horigin⟩ := Draft.forms?_origin (fun o ho => absurd ho not_mem_nil) hforms
      have hstrip : ∀ o ∈ draft.listed, o.strip = o := by
        intro o ho
        rcases horigin o (hlisted o ho) with hnil | ⟨items, -, hread⟩
        · exact absurd hnil not_mem_nil
        · exact strip_eq (declaration?_strip hread)
      rw [houtline, filter_plain_link, DeclOutline.map_strip_link _ fun o ho =>
        hstrip o (mem_of_mem_filter ho)] at hsame
      simpa using hsame

end Reload

theorem directory_eq_none (h : ∀ o ∈ ds, o.name ≠ t) : directory ds t = none := by
  have hidx : ds.findIdx? (·.name == t) = none :=
    findIdx?_eq_none_iff.mpr fun o ho => by simpa using h o ho
  rw [directory, hidx, bind_none]

/-- An atom among legible declarations that begins with a quote is a word, and stays one when the
declarations are linked. -/
theorem mem_words_of_startsQuote (hlegible : ∀ o ∈ ds, o.Legible)
    (ht : Lexeme.atom t ∈ Lexer.formLexemes (ds.map DeclOutline.written)) (hq : t.StartsQuote) :
    ∃ o ∈ ds, t ∈ wordsAll (o.link (directory ds)).values := by
  obtain ⟨items, hitems, ht⟩ := atom_mem_formLexemes.mp ht
  obtain ⟨o, ho, rfl⟩ := List.mem_map.mp hitems
  refine ⟨o, ho, ?_⟩
  rw [DeclOutline.written, lexemesAll_append, lexemesAll_map_atom] at ht
  rcases mem_append.mp ht with ht | ht
  · obtain ⟨u, hu, hut⟩ := List.mem_map.mp ht
    obtain rfl : u = t := by simpa using hut
    exact absurd hq ((hlegible o ho).heading u hu)
  · have hnone : directory ds t = none := by
      refine directory_eq_none fun o' ho' heq => ?_
      refine (hlegible o' ho').heading t (mem_cons_of_mem _ ?_) hq
      rw [← heq]
      cases o' <;> simp [DeclOutline.heading, DeclOutline.name]
    have hvalues : (o.link (directory ds)).values =
        linkAll ((directory ds).without o.hidden) o.values := by
      cases o <;> rfl
    rw [hvalues]
    refine mem_wordsAll_linkAll ?_ _ ((hlegible o ho).words t ht hq)
    rw [Directory.without]
    split
    · rfl
    · exact hnone

def atoms (p : Program) : List Text :=
  p.declarations.flatMap fun d => (Value.leavesAll d.values).filterMap Leaf.atom?

theorem mem_atoms : t ∈ p.atoms ↔ ∃ d ∈ p.declarations, Leaf.atom t ∈ Value.leavesAll d.values := by
  have hatom : ∀ l : Leaf, l.atom? = some t ↔ l = .atom t := by
    intro l
    cases l <;> simp [Leaf.atom?]
  simp [atoms, mem_flatMap, mem_filterMap, hatom]

/-- **Printing and reading back.**  A program without macros that was loaded without an error is
loaded again from its printed text, with the same declarations in the same order, the same values
and the same links, exactly if none of its atoms begins with a quote. -/
theorem reload_iff (lib lib' : Library) (entry : Entry) (name : Text) (layout : Layout)
    (hok : (load {} {} lib entry).ok = true)
    (hplain : ∀ d ∈ (load {} {} lib entry).program.declarations, d.isMacro = false) :
    let loaded := (load {} {} lib entry).program
    let again := load {} {} lib' (.source ⟨name, loaded.print layout⟩)
    (again.ok = true ∧ again.program.outline = loaded.outline) ↔
      ∀ t ∈ loaded.atoms, ¬ t.StartsQuote := by
  obtain ⟨ds, houtline, hlegible, hnames, hstrip, hcalls⟩ := load_listed hok
  have hmacros : ∀ o ∈ ds, o.isMacro = false := by
    intro o ho
    rw [← DeclOutline.isMacro_link (DeclOutline.directory ds)]
    exact outline_plain hplain _ (houtline ▸ List.mem_map_of_mem ho)
  replace hlegible : ∀ o ∈ ds, o.Legible := fun o ho => hlegible o ho (hmacros o ho)
  have hfilter : ds.filter (!·.isMacro) = ds :=
    filter_eq_self.mpr fun o ho => by simp [hmacros o ho]
  intro loaded again
  have hwritten : loaded.written = ds.map DeclOutline.written := by
    rw [written_eq, houtline, filter_plain_link, hfilter, map_written_link]
  have hprint : loaded.print layout = Shape.renderForms layout (ds.map DeclOutline.written) := by
    rw [print_eq_renderForms, hwritten]
  have hagain : again = load {} {} lib'
      (.source ⟨name, Shape.renderForms layout (ds.map DeclOutline.written)⟩) := by
    rw [← hprint]
  rw [hagain, houtline]
  constructor
  · rintro ⟨hok', hsame⟩ t ht hq
    obtain ⟨d, hd, ht⟩ := mem_atoms.mp ht
    refine plain_of_reload hlegible hnames lib' name layout hok' ?_ (.atom t) ?_ ⟨t, rfl, hq⟩
    · rw [hsame, filter_plain_link, hfilter, DeclOutline.map_strip_link _ hstrip]
    rw [← hwritten, atom_mem_formLexemes]
    refine ⟨d.written, List.mem_map_of_mem (mem_filter.mpr ⟨hd, by simp [hplain d hd]⟩), ?_⟩
    rw [Declaration.written, Shape.lexemesAll_append, mem_append]
    exact .inr (Value.mem_lexemes_writtenAll _ ht)
  · intro hatoms
    refine reload_ok hlegible hnames lib' name layout hcalls fun x hx hq => ?_
    obtain ⟨t, rfl, hq⟩ := hq
    obtain ⟨o, ho, hword⟩ := mem_words_of_startsQuote hlegible hx hq
    have hmem : o.link (DeclOutline.directory ds) ∈ loaded.outline :=
      houtline ▸ List.mem_map_of_mem ho
    obtain ⟨d, hd, heq⟩ := List.mem_map.mp hmem
    have hvalues : (d.outline loaded.place).values = Value.outlineAll loaded.place d.values := by
      cases d <;> rfl
    rw [← heq, hvalues, Value.mem_wordsAll_outlineAll] at hword
    exact hatoms t (mem_atoms.mpr ⟨d, hd, hword⟩) hq

/-- A quoted atom, a link and a clause. -/
def clauseSample : Entry :=
  .source ⟨"a", "(constglobal s n \"a b\")(script static s f(cond((g n)1)))"⟩

/-- An atom that begins with a quote. -/
def quoteSample : Entry := .source ⟨"a", "(script startup f(g)\"x)"⟩

set_option maxRecDepth 20000 in
/-- Both sides of the rule occur: a quoted atom behind a blank survives, and one that begins with a
quote does not. -/
theorem reload_samples :
    let loaded := (load {} {} {} clauseSample).program
    let again := load {} {} {} (.source ⟨"b", loaded.print .pretty⟩)
    let quoted := (load {} {} {} quoteSample).program
    let again' := load {} {} {} (.source ⟨"b", quoted.print .pretty⟩)
    (again.ok = true ∧ again.program.outline = loaded.outline) ∧
      ¬ (again'.ok = true ∧ again'.program.outline = quoted.outline) := by
  -- one evaluation of each source settles its hypotheses and its atoms
  have hclause : (fun l : Loaded => l.ok && l.program.declarations.all (!·.isMacro) &&
      l.program.atoms.all (fun t => t.head? != some Text.doubleQuote))
      (load {} {} {} clauseSample) = true := by cbv
  have hquote : (fun l : Loaded => l.ok && l.program.declarations.all (!·.isMacro) &&
      l.program.atoms.any (fun t => t.head? == some Text.doubleQuote))
      (load {} {} {} quoteSample) = true := by cbv
  simp only [Bool.and_eq_true, List.all_eq_true, Bool.not_eq_true', bne_iff_ne, List.any_eq_true,
    beq_iff_eq] at hclause hquote
  obtain ⟨⟨hok, hplain⟩, hatoms⟩ := hclause
  obtain ⟨⟨hok', hplain'⟩, t, ht, hq⟩ := hquote
  exact ⟨(reload_iff {} {} clauseSample "b" .pretty hok hplain).mpr hatoms,
    fun hsame => (reload_iff {} {} quoteSample "b" .pretty hok' hplain').mp hsame t ht hq⟩

end Program

end HaloScript
