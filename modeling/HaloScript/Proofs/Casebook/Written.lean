/-
# Data read back

What a printer writes for a datum, the reader reads back, whatever comes after it
(`Datum.ofTokens_print`).  The bytes of a string may be written in several ways; what the reader
makes of them is the business of a `Spelling`.

The data that the reader can give are those it can read back (`Datum.Legible`): a symbol begins
with a letter and goes on with letters, digits, `-` and `_`, and no string has a zero byte, which is
where a text ends.  So a text that is read, printed and read again gives the same datum
(`Datum.read_render_iff`).
-/
import HaloScript.Casebook.DatumReader
import HaloScript.Proofs.Collections

namespace HaloScript

open List

namespace Datum

open Text (doubleQuote backslash openBracket closeBracket space)

variable {t : Text}

/-! ## 1. Data that can be read -/

/-- A letter, and after it letters, digits, `-` and `_`. -/
def isName : Text → Bool
  | [] => false
  | b :: rest => isLetter b && rest.all isSymbolByte

mutual

/-- The datum has no kind of its own, its symbols are names, and its strings are among those
allowed. -/
def Made (allowed : Text → Prop) : Datum → Prop
  | .symbol t => isName t = true
  | .string t => allowed t
  | .ellipsis => True
  | .list items => MadeAll allowed items
  | .other _ _ => False

def MadeAll (allowed : Text → Prop) : List Datum → Prop
  | [] => True
  | d :: rest => Made allowed d ∧ MadeAll allowed rest

end

/-- The datum can be read: no string of it has a zero byte. -/
abbrev Legible (d : Datum) : Prop := d.Made (0 ∉ ·)

theorem madeAll_iff {allowed : Text → Prop} {items : List Datum} :
    MadeAll allowed items ↔ ∀ d ∈ items, d.Made allowed := by
  induction items with
  | nil => simp [MadeAll]
  | cons d rest ih => simp [MadeAll, ih]

theorem isName_append (ht : isName t = true) {b : UInt8} (hb : isSymbolByte b = true) :
    isName (t ++ [b]) = true := by
  cases t with
  | nil => cases ht
  | cons => simpa [isName, hb] using ht

/-- What the scanner is in the middle of can become a part of a datum. -/
def ScanState.Legible : ScanState → Prop
  | .symbol read => (Datum.symbol read.reverse).Legible
  | .string read | .escape read => 0 ∉ read
  | .between | .comment | .dots _ => True

/-- The token can be a part of a datum. -/
def Token.Legible : Token → Prop
  | .atom d => d.Legible
  | .openList | .closeList | .fault _ => True

/-- **Tokens are legible.** -/
theorem tokens_legible (t : Text) (state : ScanState) (hstate : state.Legible) :
    ∀ token ∈ tokens state t, token.Legible := by
  induction t generalizing state with
  | nil =>
    cases state <;> simp_all [tokens, Token.Legible, ScanState.Legible]
  | cons b rest ih =>
    -- all of it but the first token comes from what follows the byte
    have hmore : ∀ first state', Token.Legible first → state'.Legible →
        ∀ token ∈ first :: tokens state' rest, token.Legible := fun first state' hfirst hstate' =>
      forall_mem_cons.mpr ⟨hfirst, ih state' hstate'⟩
    have hfault : ∀ f, ∀ token ∈ [Token.fault f], token.Legible := fun f =>
      forall_mem_singleton.mpr trivial
    have hstart : ∀ token ∈ tokens.start b rest, token.Legible := by
      unfold tokens.start
      split
      · exact fun _ h => absurd h not_mem_nil
      split
      · exact ih .between trivial
      split
      · exact ih .comment trivial
      split
      · exact hmore _ .between trivial trivial
      split
      · exact hmore _ .between trivial trivial
      split
      · exact ih (.string []) not_mem_nil
      split
      · exact ih (.dots false) trivial
      split
      · next hletter =>
        exact ih (.symbol [b]) (by simpa [ScanState.Legible, Made, isName] using hletter)
      · exact hfault _
    cases state with
    | between =>
      rw [tokens]
      exact hstart
    | comment =>
      rw [tokens]
      split
      · exact fun _ h => absurd h not_mem_nil
      split
      · exact ih .between trivial
      · exact ih .comment trivial
    | symbol read =>
      rw [tokens]
      split
      · next hb =>
        refine ih (.symbol (b :: read)) ?_
        simp only [ScanState.Legible, Made, reverse_cons] at hstate ⊢
        exact isName_append hstate hb
      · exact forall_mem_cons.mpr ⟨hstate, hstart⟩
    | string read =>
      rw [tokens]
      split
      · exact hmore _ .between (fun h => hstate (mem_reverse.mp h)) trivial
      split
      · exact ih (.escape read) hstate
      split
      · exact hfault _
      · next hzero =>
        refine ih (.string (b :: read)) fun h => (mem_cons.mp h).elim (fun h => hzero ?_) hstate
        simp [← h]
    | escape read =>
      rw [tokens]
      split
      · next hb =>
        refine ih (.string (b :: read)) fun h => (mem_cons.mp h).elim (fun h => ?_) hstate
        exact absurd (h ▸ hb) (by decide)
      · exact hfault _
    | dots =>
      rw [tokens]
      split
      · split
        · exact hmore _ .between trivial trivial
        · exact ih (.dots true) trivial
      · exact hfault _

theorem finish_eq_ok {d d' : Datum} {ts : List Token} (h : finish d ts = .ok d') : d' = d := by
  unfold finish at h
  split at h
  · exact (Except.ok.inj h).symm
  · cases h
  · cases h

/-- **What is read from legible tokens is legible.** -/
theorem ofTokens_legible {opened : List (List Datum)} {ts : List Token} {d : Datum}
    (hopened : ∀ items ∈ opened, ∀ a ∈ items, a.Legible) (hts : ∀ token ∈ ts, token.Legible)
    (h : ofTokens opened ts = .ok d) : d.Legible := by
  fun_induction ofTokens opened ts with
  | case1 | case2 | case3 | case5 => cases h
  | case4 opened rest ih =>
    refine ih (forall_mem_cons.mpr ⟨by simp, hopened⟩) (forall_mem_cons.mp hts).2 h
  | case6 items rest =>
    obtain rfl := finish_eq_ok h
    exact madeAll_iff.mpr fun a ha => hopened items (by simp) a (mem_reverse.mp ha)
  | case7 items outer opened rest ih =>
    obtain ⟨hitems, hothers⟩ := forall_mem_cons.mp hopened
    obtain ⟨houter, hopened⟩ := forall_mem_cons.mp hothers
    refine ih ?_ (forall_mem_cons.mp hts).2 h
    refine forall_mem_cons.mpr ⟨forall_mem_cons.mpr ⟨?_, houter⟩, hopened⟩
    exact madeAll_iff.mpr fun a ha => hitems a (mem_reverse.mp ha)
  | case8 d rest =>
    obtain rfl := finish_eq_ok h
    exact (forall_mem_cons.mp hts).1
  | case9 items opened a rest ih =>
    obtain ⟨hitems, hopened⟩ := forall_mem_cons.mp hopened
    obtain ⟨ha, hrest⟩ := forall_mem_cons.mp hts
    exact ih (forall_mem_cons.mpr ⟨forall_mem_cons.mpr ⟨ha, hitems⟩, hopened⟩) hrest h

/-! ## 2. Tokens of what is written -/

/-- No symbol goes on with this text. -/
def Ends (rest : Text) : Prop := ∀ b ∈ rest.head?, isSymbolByte b = false

theorem tokens_symbolBytes (ht : ∀ b ∈ t, isSymbolByte b = true) (read : Text) {rest : Text}
    (hrest : Ends rest) : tokens (.symbol read) (t ++ rest) =
      .atom (.symbol (read.reverse ++ t)) :: tokens .between rest := by
  induction t generalizing read with
  | nil =>
    cases rest with
    | nil => simp [tokens]
    | cons b => simp [tokens, hrest b rfl]
  | cons b t ih =>
    obtain ⟨hb, ht⟩ := forall_mem_cons.mp ht
    rw [cons_append, tokens, if_pos hb, ih ht]
    simp

theorem start_letter {b : UInt8} (hb : isLetter b = true) (rest : Text) :
    tokens.start b rest = tokens (.symbol [b]) rest := by
  have hother : ∀ b : UInt8, isLetter b = true → (b == 0) = false ∧ isBlank b = false ∧
      (b == Text.semicolon) = false ∧ (b == openBracket) = false ∧ (b == closeBracket) = false ∧
      (b == doubleQuote) = false ∧ (b == Text.dot) = false := forall_byte (by decide +kernel)
  obtain ⟨hzero, hblank, hsemi, hopen, hclose, hquote, hdot⟩ := hother b hb
  simp [tokens.start, hzero, hblank, hsemi, hopen, hclose, hquote, hdot, hb]

theorem tokens_name (ht : isName t = true) {rest : Text} (hrest : Ends rest) :
    tokens .between (t ++ rest) = .atom (.symbol t) :: tokens .between rest := by
  cases t with
  | nil => cases ht
  | cons b =>
    rw [isName, Bool.and_eq_true, all_eq_true] at ht
    rw [cons_append, tokens, start_letter ht.1]
    exact tokens_symbolBytes ht.2 [b] hrest

theorem tokens_space (rest : Text) : tokens .between (space :: rest) = tokens .between rest := by
  rw [tokens, tokens.start]
  rfl

theorem tokens_open (rest : Text) :
    tokens .between (openBracket :: rest) = .openList :: tokens .between rest := by
  rw [tokens, tokens.start]
  rfl

theorem tokens_close (rest : Text) :
    tokens .between (closeBracket :: rest) = .closeList :: tokens .between rest := by
  rw [tokens, tokens.start]
  rfl

theorem tokens_quote (rest : Text) :
    tokens .between (doubleQuote :: rest) = tokens (.string []) rest := by
  rw [tokens, tokens.start]
  rfl

theorem tokens_dots (rest : Text) :
    tokens .between (("..." : Text) ++ rest) = .atom .ellipsis :: tokens .between rest := by
  show tokens .between (Text.dot :: Text.dot :: Text.dot :: rest) = _
  rw [tokens, tokens.start]
  show tokens (.dots false) _ = _
  rw [tokens]
  show tokens (.dots true) _ = _
  rw [tokens]
  rfl

/-- A way of writing the bytes of strings between quotes.  Reading them gives the string back, or
stops at a backslash because of the byte after it. -/
structure Spelling where
  spell : Text → Text
  writes : Text → Prop
  halt? : Text → Option UInt8
  reads : ∀ t, writes t → ∀ rest, tokens (.string []) (spell t ++ doubleQuote :: rest) =
    (halt? t).elim (.atom (.string t) :: tokens .between rest) fun b => [.fault (.badEscape b)]

mutual

def print (spell : Text → Text) : Datum → Text
  | .symbol t => t
  | .string t => doubleQuote :: spell t ++ [doubleQuote]
  | .ellipsis => "..."
  | .list items => openBracket :: (printAll spell items).tail ++ [closeBracket]
  | .other code _ => "UNKNOWN_NODE_TYPE_" ++ Text.ofInt code

def printAll (spell : Text → Text) : List Datum → Text
  | [] => []
  | d :: rest => space :: print spell d ++ printAll spell rest

end

mutual

def strings : Datum → List Text
  | .string t => [t]
  | .list items => stringsAll items
  | .symbol _ | .ellipsis | .other _ _ => []

def stringsAll : List Datum → List Text
  | [] => []
  | d :: rest => strings d ++ stringsAll rest

end

/-- Goes on after a datum: it is the last item so far of the innermost list that is open, or all
there is. -/
def resume (opened : List (List Datum)) (d : Datum) (ts : List Token) : Except DatumFault Datum :=
  match opened with
  | [] => finish d ts
  | items :: opened => ofTokens ((d :: items) :: opened) ts

theorem ofTokens_atom (opened : List (List Datum)) (d : Datum) (ts : List Token) :
    ofTokens opened (.atom d :: ts) = resume opened d ts := by
  cases opened <;> rfl

theorem ofTokens_close (items : List Datum) (opened : List (List Datum)) (ts : List Token) :
    ofTokens (items :: opened) (.closeList :: ts) = resume opened (.list items.reverse) ts := by
  cases opened <;> rfl

theorem ofTokens_fault (opened : List (List Datum)) (f : DatumFault) (ts : List Token) :
    ofTokens opened (.fault f :: ts) = .error f := by
  cases opened <;> rfl

theorem tokens_printAll_tail (spell : Text → Text) (items : List Datum) (rest : Text) :
    tokens .between ((printAll spell items).tail ++ rest) =
      tokens .between (printAll spell items ++ rest) := by
  cases items with
  | nil => rfl
  | cons => exact (tokens_space _).symm

variable (s : Spelling)

mutual

/-- **Reading what is written for a datum** gives the datum, unless a string of it halts the
reader. -/
theorem ofTokens_print (d : Datum) (hd : d.Made s.writes) (opened : List (List Datum)) (rest : Text)
    (hrest : Ends rest) : ofTokens opened (tokens .between (d.print s.spell ++ rest)) =
      (d.strings.findSome? s.halt?).elim (resume opened d (tokens .between rest))
        fun b => .error (.badEscape b) := by
  match d with
  | .symbol t =>
    rw [print, tokens_name hd hrest, ofTokens_atom]
    rfl
  | .string t =>
    simp only [print, cons_append, append_assoc, nil_append, tokens_quote,
      s.reads t hd, strings, findSome?_cons, findSome?_nil]
    cases s.halt? t with
    | none => exact ofTokens_atom opened _ _
    | some => exact ofTokens_fault opened _ _
  | .ellipsis =>
    rw [print, tokens_dots, ofTokens_atom]
    rfl
  | .list items =>
    rw [print, cons_append, cons_append, append_assoc, singleton_append,
      tokens_open, tokens_printAll_tail, ofTokens, ofTokens_printAll items hd [] opened rest]
    rfl

/-- The items of a list are read one after the other, up to the end of the list. -/
theorem ofTokens_printAll (items : List Datum) (hitems : MadeAll s.writes items)
    (read : List Datum) (opened : List (List Datum)) (rest : Text) :
    ofTokens (read :: opened) (tokens .between (printAll s.spell items ++ closeBracket :: rest)) =
      ((stringsAll items).findSome? s.halt?).elim
        (resume opened (.list (read.reverse ++ items)) (tokens .between rest))
        fun b => .error (.badEscape b) := by
  match items with
  | [] =>
    rw [printAll, nil_append, tokens_close, ofTokens_close, append_nil]
    rfl
  | d :: items =>
    have hends : Ends (printAll s.spell items ++ closeBracket :: rest) := by
      cases items <;> simp [Ends, printAll] <;> decide
    rw [printAll, cons_append, cons_append, tokens_space, append_assoc,
      ofTokens_print d hitems.1 (read :: opened) _ hends, stringsAll, findSome?_append]
    cases d.strings.findSome? s.halt? with
    | none =>
      rw [Option.none_or, Option.elim_none, resume, ofTokens_printAll items hitems.2]
      simp
    | some => rfl

end

/-- **What is written for a datum is read as that datum**, unless one of its strings halts the
reader. -/
theorem read_print (d : Datum) (hd : d.Made s.writes) : read (d.print s.spell) =
    (d.strings.findSome? s.halt?).elim (.ok d) fun b => .error (.badEscape b) := by
  have h := ofTokens_print s d hd [] [] (by simp [Ends])
  rw [append_nil] at h
  rw [read, h, tokens]
  rfl

/-! ## 3. Backslashes where they are needed -/

theorem tokens_byte {b : UInt8} (hquote : b ≠ doubleQuote) (hslash : b ≠ backslash) (hzero : b ≠ 0)
    (read rest : Text) :
    tokens (.string read) (b :: rest) = tokens (.string (b :: read)) rest := by
  simp [tokens, hquote, hslash, hzero]

theorem tokens_marked (b : UInt8) (read rest : Text) :
    tokens (.string read) (backslash :: b :: rest) =
      if b == doubleQuote || b == backslash then tokens (.string (b :: read)) rest
      else [.fault (.badEscape b)] := by
  rw [tokens, if_neg (by decide), if_pos (by decide), tokens]

theorem tokens_escape (ht : 0 ∉ t) (read rest : Text) :
    tokens (.string read) (escape t ++ doubleQuote :: rest) =
      .atom (.string (read.reverse ++ t)) :: tokens .between rest := by
  induction t generalizing read with
  | nil => simp [escape, tokens]
  | cons b t ih =>
    rw [mem_cons, not_or] at ht
    have hbyte : tokens (.string read) (escape (b :: t) ++ doubleQuote :: rest) =
        tokens (.string (b :: read)) (escape t ++ doubleQuote :: rest) := by
      rw [escape, flatMap_cons]
      split
      · next h => exact (tokens_marked b read _).trans (if_pos h)
      · next h =>
        rw [Bool.or_eq_true, not_or, beq_iff_eq, beq_iff_eq] at h
        exact tokens_byte h.1 h.2 (Ne.symm ht.1) read _
    rw [hbyte, ih ht.2]
    simp

def plainSpelling : Spelling where
  spell := escape
  writes t := 0 ∉ t
  halt? _ := none
  reads _ ht rest := tokens_escape ht [] rest

theorem renderItems_eq (items : List Datum) (h : ∀ d ∈ items, d.render = d.print escape) :
    renderItems items = (printAll escape items).tail := by
  induction items with
  | nil => rfl
  | cons d rest ih =>
    obtain ⟨hd, hrest⟩ := forall_mem_cons.mp h
    cases rest with
    | nil => simp [renderItems, printAll, hd]
    | cons =>
      have := ih hrest
      simp_all [renderItems, printAll]

theorem render_eq_print (d : Datum) : d.render = d.print escape := by
  match d with
  | .symbol t | .string t | .ellipsis | .other code t => simp [render, print]
  | .list items =>
    rw [render, print, renderItems_eq items fun d hd => render_eq_print d]

/-- A legible datum is read back. -/
theorem read_render {d : Datum} (hd : d.Legible) : read d.render = .ok d := by
  rw [render_eq_print]
  refine (read_print plainSpelling d hd).trans ?_
  have hnone : d.strings.findSome? plainSpelling.halt? = none :=
    findSome?_eq_none_iff.mpr fun _ _ => rfl
  rw [hnone]
  rfl

theorem legible_of_read {d : Datum} (h : read t = .ok d) : d.Legible :=
  ofTokens_legible (by simp) (tokens_legible t .between trivial) h

/-- **Printing and reading again gives the same datum**: it does so for the data that can be read,
and these are the legible ones. -/
theorem read_render_iff (d : Datum) :
    (d.Legible ↔ read d.render = .ok d) ∧ (d.Legible ↔ ∃ t, read t = .ok d) :=
  ⟨⟨read_render, legible_of_read⟩,
    ⟨fun hd => ⟨_, read_render hd⟩, fun ⟨_, h⟩ => legible_of_read h⟩⟩

end Datum

end HaloScript
