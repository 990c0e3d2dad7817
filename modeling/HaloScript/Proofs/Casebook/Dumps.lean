/-
# Dumps read as data

A dump is the text of a datum (`Program.datum`): its symbols are the words of the dump, and its
strings are the texts of the program, in order (`Program.dump_eq_print`).

Texts are quoted with more escapes than the reader of data knows.  It takes a backslash in front of
a quote or another backslash, and stops at any other one.  So a dump can be read back if and only if
all texts of the program are made of printable characters (`Program.dump_readable`): one tab in a
quoted word is enough to make it unreadable (`Program.dump_readable_tabSample`).

The sample is evaluated by `cbv`, which needs equations that only the whole library has.
-/
import HaloScript.Build.Import
import HaloScript.Program.Dump
import HaloScript.Proofs.Casebook.Written
import HaloScript.Proofs.Characters
import Mathlib

namespace HaloScript

open List

/-! ## 1. Quoted texts -/

namespace Piece

def isShown : Piece → Bool
  | .char c => Text.isPrintable c.toNat
  | .broken _ => false

/-- The byte after the backslash with which a piece is quoted. -/
def mark (piece : Piece) : UInt8 := (Text.quotePiece piece)[1]?.getD 0

end Piece

namespace Text

/-- Whatever is not printable is quoted with a backslash and a letter. -/
theorem quotePiece_hidden {piece : Piece} (h : piece.isShown = false) :
    ∃ more, quotePiece piece = backslash :: piece.mark :: more ∧
      (piece.mark == doubleQuote || piece.mark == backslash) = false := by
  have hform : ∀ b more, quotePiece piece = backslash :: b :: more →
      (b == doubleQuote || b == backslash) = false → ∃ more,
        quotePiece piece = backslash :: piece.mark :: more ∧
          (piece.mark == doubleQuote || piece.mark == backslash) = false := by
    intro b more hq hb
    have hmark : piece.mark = b := by rw [Piece.mark, hq]; rfl
    exact ⟨more, hmark ▸ hq, hmark ▸ hb⟩
  cases piece with
  | broken => exact hform 0x78 _ rfl rfl
  | char c =>
    have hquote : ¬ (c == '"') = true := by
      rintro hc
      rw [beq_iff_eq.mp hc] at h
      exact absurd h (by decide)
    have hslash : ¬ (c == '\\') = true := by
      rintro hc
      rw [beq_iff_eq.mp hc] at h
      exact absurd h (by decide)
    have hhidden : ¬ isPrintable c.toNat = true := (Bool.not_eq_true _).mpr h
    have hq : quotePiece (.char c) = (escapeLetter c.toNat).elim (escapeCode c.toNat)
        fun letter => [backslash, letter] := by
      rw [quotePiece, if_neg hquote, if_neg hslash, if_neg hhidden]
      cases escapeLetter c.toNat <;> rfl
    cases hletter : escapeLetter c.toNat with
    | some letter =>
      refine hform letter [] (by rw [hq, hletter]; rfl) ?_
      unfold escapeLetter at hletter
      split at hletter <;> cases hletter <;> rfl
    | none =>
      rw [hletter, Option.elim_none, escapeCode] at hq
      split at hq
      · exact hform 0x78 _ hq rfl
      · split at hq
        · exact hform 0x75 _ hq rfl
        · exact hform 0x55 _ hq rfl

end Text

namespace Datum

open Text

theorem tokens_bytes {t : Text} (ht : ∀ b ∈ t, b ≠ doubleQuote ∧ b ≠ backslash ∧ b ≠ 0)
    (read rest : Text) :
    tokens (.string read) (t ++ rest) = tokens (.string (t.reverse ++ read)) rest := by
  induction t generalizing read with
  | nil => rfl
  | cons b t ih =>
    obtain ⟨⟨hquote, hslash, hzero⟩, ht⟩ := forall_mem_cons.mp ht
    rw [cons_append, tokens_byte hquote hslash hzero, ih ht]
    simp

/-- A printable character is read back from what is quoted for it. -/
theorem tokens_shown {piece : Piece} (h : piece.isShown = true) (read rest : Text) :
    tokens (.string read) (quotePiece piece ++ rest) =
      tokens (.string (piece.bytes.reverse ++ read)) rest := by
  cases piece with
  | broken => cases h
  | char c =>
    rw [quotePiece]
    split
    · next hc =>
      rw [beq_iff_eq.mp hc]
      exact tokens_marked doubleQuote read rest
    split
    · next hc =>
      rw [beq_iff_eq.mp hc]
      exact tokens_marked backslash read rest
    next hquote hslash =>
    rw [if_pos (show Text.isPrintable c.toNat = true from h)]
    refine tokens_bytes (fun b hb => ⟨?_, ?_, ?_⟩) read rest
    · rintro rfl
      exact hquote (beq_iff_eq.mpr (eq_ofNat_of_mem_ofChar hb (by decide)))
    · rintro rfl
      exact hslash (beq_iff_eq.mpr (eq_ofNat_of_mem_ofChar hb (by decide)))
    · rintro rfl
      rw [Piece.isShown, eq_ofNat_of_mem_ofChar hb (by decide)] at h
      exact absurd h (by decide)

/-- **Quoted pieces are read up to the first one that is not printable.** -/
theorem tokens_quoted (ps : List Piece) (read rest : Text) :
    tokens (.string read) (ps.flatMap quotePiece ++ doubleQuote :: rest) =
      ((ps.find? (!·.isShown)).map Piece.mark).elim
        (.atom (.string (read.reverse ++ ofPieces ps)) :: tokens .between rest)
        fun b => [.fault (.badEscape b)] := by
  induction ps generalizing read with
  | nil => simp [tokens, ofPieces]
  | cons piece ps ih =>
    rw [flatMap_cons, append_assoc]
    cases hshown : piece.isShown with
    | true =>
      rw [tokens_shown hshown, ih, find?_cons_of_neg (by simp [hshown])]
      simp [ofPieces]
    | false =>
      obtain ⟨more, hq, hmark⟩ := quotePiece_hidden hshown
      rw [hq, cons_append, cons_append, tokens_marked, hmark,
        find?_cons_of_pos (by simp [hshown])]
      rfl

def quoteSpelling : Spelling where
  spell t := (pieces t).flatMap quotePiece
  writes _ := True
  halt? t := ((pieces t).find? (!·.isShown)).map Piece.mark
  reads t _ rest := by
    have h := tokens_quoted (pieces t) [] rest
    rwa [ofPieces_pieces] at h

/-- A list that begins with a word. -/
def form (word : Text) (items : List Datum) : Datum := .list (.symbol word :: items)

theorem print_form (spell : Text → Text) (word : Text) (items : List Datum) :
    (form word items).print spell =
      openBracket :: word ++ printAll spell items ++ [closeBracket] := by
  simp [form, print, printAll]

theorem made_form {allowed : Text → Prop} {word : Text} {items : List Datum}
    (hword : isName word = true) (hitems : MadeAll allowed items) :
    (form word items).Made allowed := ⟨hword, hitems⟩

theorem printAll_append (spell : Text → Text) (ds es : List Datum) :
    printAll spell (ds ++ es) = printAll spell ds ++ printAll spell es := by
  induction ds with
  | nil => rfl
  | cons d ds ih => simp [printAll, ih]

end Datum

/-! ## 2. The datum of a program -/

open Datum (form)

def Leaf.datum : Leaf → Datum
  | .blank => form "unknown" []
  | .atom t => form "atom" [.string t]
  | .global g => form "global-ref" [.string g.name]
  | .script s => form "script-ref" [.string s.name]

def Head.datum (h : Head) (args : List Datum) : Datum :=
  if h.clause then form "clause" args
  else match h.callee with
    | .word t _ => form "call" (.string t :: args)
    | .script s => form "call-script" (.string s.name :: args)

namespace Value

mutual

def datum : Value → Datum
  | .leaf _ l => l.datum
  | .call _ h args => h.datum (datumAll args)

def datumAll : List Value → List Datum
  | [] => []
  | v :: rest => datum v :: datumAll rest

end

end Value

def Param.datum (p : Param) : Datum := form "param" [.string p.type, .string p.name]

def Declaration.datum : Declaration → Datum
  | .global g => form (if g.isConst then "constglobal" else "global")
      [.string g.type, .string g.id.name, g.value.datum]
  | .script s => form "script" (.string s.kind.name ::
      (if s.kind.hasReturnType then [.string s.returnType] else []) ++
      .string s.id.name :: (if s.isMacro then [form "params" (s.params.map Param.datum)] else []) ++
      Value.datumAll s.body)

def Program.datum (p : Program) : Datum := form "ast" (p.declarations.map Declaration.datum)

/-! ## 3. Dumps -/

section

open Datum

abbrev Datum.dumped (d : Datum) : Text := d.print quoteSpelling.spell

abbrev Datum.dumpedAll (ds : List Datum) : Text := printAll quoteSpelling.spell ds

theorem Datum.print_string (t : Text) : (Datum.string t).dumped = t.quote := rfl

theorem Datum.dumpedAll_map {α : Type} {f : α → Datum} {g : α → Text}
    (h : ∀ a, g a = (f a).dumped) (as : List α) :
    dumpedAll (as.map f) = as.flatMap fun a => Text.space :: g a := by
  induction as with
  | nil => rfl
  | cons a as ih =>
    rw [flatMap_cons, ← ih, h]
    rfl

theorem Leaf.dump_eq (l : Leaf) : l.dump = l.datum.dumped := by
  cases l <;> simp only [dump, datum, print_form, printAll, print_string, append_assoc] <;> rfl

theorem Head.dump_eq (h : Head) (args : List Datum) :
    h.dump ++ dumpedAll args ++ ")" = (h.datum args).dumped := by
  obtain ⟨id, span, callee, clause⟩ := h
  cases clause with
  | true => exact (print_form _ _ args).symm
  | false =>
    cases callee with
    | word t =>
      refine .trans ?_ (print_form _ "call" (.string t :: args)).symm
      simp only [dump, printAll, print_string, append_assoc]
      rfl
    | script s =>
      refine .trans ?_ (print_form _ "call-script" (.string s.name :: args)).symm
      simp only [dump, printAll, print_string, append_assoc]
      rfl

namespace Value

mutual

theorem dump_eq (v : Value) : v.dump = v.datum.dumped := by
  match v with
  | .leaf t l => exact l.dump_eq
  | .call t h args =>
    rw [dump, dumpAll_eq args, datum]
    exact h.dump_eq (datumAll args)

theorem dumpAll_eq (vs : List Value) : dumpAll vs = dumpedAll (datumAll vs) := by
  match vs with
  | [] => rfl
  | v :: rest =>
    rw [dumpAll, datumAll, dump_eq v, dumpAll_eq rest]
    rfl

end

end Value

theorem Param.dump_eq (p : Param) : p.dump = p.datum.dumped := by
  simp only [dump, datum, print_form, printAll, print_string, append_assoc]
  rfl

theorem Declaration.dump_eq (d : Declaration) : d.dump = d.datum.dumped := by
  cases d with
  | global g =>
    simp only [dump, Global.dump, datum, print_form, printAll, print_string, g.value.dump_eq,
      append_assoc]
    cases g.isConst <;> rfl
  | script s =>
    have hparams := dumpedAll_map Param.dump_eq s.params
    simp only [dump, Script.dump, datum, print_form, printAll, printAll_append, print_string,
      Value.dumpAll_eq, append_assoc, ← hparams]
    cases s.kind.hasReturnType <;> cases s.isMacro <;>
      simp [printAll, print_form, print_string] <;> rfl

/-- **A dump is the text of a datum.** -/
theorem Program.dump_eq_print (p : Program) : p.dump = p.datum.dumped := by
  rw [dump, ← dumpedAll_map Declaration.dump_eq]
  exact (print_form _ _ _).symm

/-! ## 4. Reading a dump -/

theorem Datum.madeAll_append {allowed : Text → Prop} {ds es : List Datum}
    (hds : MadeAll allowed ds) (hes : MadeAll allowed es) : MadeAll allowed (ds ++ es) := by
  rw [madeAll_iff] at hds hes ⊢
  intro d hd
  exact (mem_append.mp hd).elim (hds d) (hes d)

theorem Leaf.made_datum (l : Leaf) : l.datum.Made quoteSpelling.writes := by
  cases l <;> exact made_form (by decide) (by simp [MadeAll, Made, quoteSpelling])

theorem Head.made_datum (h : Head) {args : List Datum} (hargs : MadeAll quoteSpelling.writes args) :
    (h.datum args).Made quoteSpelling.writes := by
  unfold datum
  split
  · exact made_form (by decide) hargs
  · split
    · exact made_form (by decide) ⟨trivial, hargs⟩
    · exact made_form (by decide) ⟨trivial, hargs⟩

namespace Value

mutual

theorem made_datum (v : Value) : v.datum.Made quoteSpelling.writes := by
  match v with
  | .leaf t l => exact l.made_datum
  | .call t h args => exact h.made_datum (made_datumAll args)

theorem made_datumAll (vs : List Value) : MadeAll quoteSpelling.writes (datumAll vs) := by
  match vs with
  | [] => trivial
  | v :: rest => exact ⟨made_datum v, made_datumAll rest⟩

end

end Value

theorem Declaration.made_datum (d : Declaration) : d.datum.Made quoteSpelling.writes := by
  cases d with
  | global g =>
    refine made_form ?_ ⟨trivial, trivial, g.value.made_datum, trivial⟩
    cases g.isConst <;> decide
  | script s =>
    have hparams : MadeAll quoteSpelling.writes (s.params.map Param.datum) := by
      rw [madeAll_iff]
      rintro _ hd
      obtain ⟨param, -, rfl⟩ := mem_map.mp hd
      exact made_form (by decide) ⟨trivial, trivial, trivial⟩
    refine made_form (by decide)
      (madeAll_append (madeAll_append ?_ ?_) (Value.made_datumAll s.body))
    · split <;> simp [MadeAll, Made, quoteSpelling]
    · refine ⟨trivial, ?_⟩
      split
      · exact ⟨made_form (by decide) hparams, trivial⟩
      · trivial

theorem Program.made_datum (p : Program) : p.datum.Made quoteSpelling.writes := by
  refine made_form (by decide) (madeAll_iff.mpr ?_)
  rintro _ hd
  obtain ⟨d, -, rfl⟩ := mem_map.mp hd
  exact d.made_datum

/-- **A dump reads back if and only if all texts of the program are printable.**  Otherwise the
reader stops at the first piece that is not, with the letter of its escape. -/
theorem Program.dump_readable (p : Program) :
    Datum.read p.dump = ((p.datum.strings.flatMap Text.pieces).find? (!·.isShown)).elim
      (.ok p.datum)
      fun piece => .error (.badEscape piece.mark) := by
  have hfirst : p.datum.strings.findSome? quoteSpelling.halt? =
      ((p.datum.strings.flatMap Text.pieces).find? (!·.isShown)).map Piece.mark := by
    rw [find?_flatMap, map_findSome?]
    rfl
  rw [dump_eq_print, read_print _ _ p.made_datum, hfirst, Option.elim_map]
  rfl

def tabSample : Entry := .source ⟨"a", "(global string x \"a\tb\")"⟩

set_option maxRecDepth 20000 in
/-- The sample is loaded without an error, but its dump cannot be read. -/
theorem Program.dump_readable_tabSample :
    (load {} {} {} tabSample).report = {} ∧
      (load {} {} {} tabSample).program.dump =
        "(ast (global \"string\" \"x\" (atom \"a\\tb\")))" ∧
      Datum.read (load {} {} {} tabSample).program.dump = .error (.badEscape 0x74) :=
  ⟨by cbv, by cbv, (dump_readable _).trans (by cbv)⟩

end

end HaloScript
