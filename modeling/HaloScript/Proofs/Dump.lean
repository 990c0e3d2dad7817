/-
# What a dump tells

Two programs with the same dump weigh the same.  The weight can be read off the dump: every value
opens one bracket, a call one with a `c` behind it, and brackets inside quotes can be told from
these (`Text.weighs_quote`).  So whatever makes a declaration lighter shows in the dump
(`Program.weighs_dump`).
-/
import HaloScript.Program.Dump
import HaloScript.Proofs.Characters
import HaloScript.Proofs.Lowering.Spots

namespace HaloScript

open List Text

/-! ## 1. Brackets outside quotes -/

namespace Text

/-- Where a reader of a dump stands: outside quotes, right after an opening bracket there, inside
quotes, or after a backslash inside quotes. -/
inductive Stance
  | outside
  | opened
  | quoted
  | escaped
deriving DecidableEq

def Stance.step : Stance → UInt8 → Stance × Nat
  | .quoted, b =>
    if b == backslash then (.escaped, 0)
    else if b == doubleQuote then (.outside, 0) else (.quoted, 0)
  | .escaped, _ => (.quoted, 0)
  | s, b =>
    if b == openBracket then (.opened, 1)
    else if b == doubleQuote then (.quoted, 0)
    else if s == .opened && b == 0x63 then (.outside, 1)
    else (.outside, 0)

/-- A text read byte by byte, and the weight of its brackets. -/
def scan (s : Stance) : Text → Stance × Nat
  | [] => (s, 0)
  | b :: rest =>
    let (s', n) := s.step b
    let (s'', m) := scan s' rest
    (s'', n + m)

theorem scan_cons (s : Stance) (b : UInt8) (rest : Text) : scan s (b :: rest) =
    ((scan (s.step b).1 rest).1, (s.step b).2 + (scan (s.step b).1 rest).2) := rfl

theorem scan_append (t u : Text) (s : Stance) :
    scan s (t ++ u) = ((scan (scan s t).1 u).1, (scan s t).2 + (scan (scan s t).1 u).2) := by
  induction t generalizing s with
  | nil => simp [scan]
  | cons b rest ih => rw [cons_append, scan_cons, scan_cons, ih, Nat.add_assoc]

theorem scan_quoted {t : Text} (h : ∀ b ∈ t, b ≠ doubleQuote ∧ b ≠ backslash) :
    scan .quoted t = (.quoted, 0) := by
  induction t with
  | nil => rfl
  | cons b rest ih =>
    obtain ⟨⟨hquote, hslash⟩, hrest⟩ := forall_mem_cons.mp h
    simp [scan_cons, Stance.step, hquote, hslash, ih hrest]

theorem digit_plain : ∀ n < 16, digit n ≠ doubleQuote ∧ digit n ≠ backslash := by decide

theorem hex_plain (width n : Nat) : ∀ b ∈ hex width n, b ≠ doubleQuote ∧ b ≠ backslash := by
  intro b hb
  obtain ⟨k, -, rfl⟩ := mem_map.mp hb
  exact digit_plain _ (Nat.mod_lt _ (by decide))

/-- In UTF-8 quotes and backslashes are part of no other character. -/
theorem ofChar_plain {c : Char} (hquote : c ≠ '"') (hslash : c ≠ '\\') :
    ∀ b ∈ ofChar c, b ≠ doubleQuote ∧ b ≠ backslash := by
  refine fun b hb => ⟨?_, ?_⟩
  · rintro rfl
    exact hquote ((eq_ofNat_of_mem_ofChar hb (by decide)).trans (by decide))
  · rintro rfl
    exact hslash ((eq_ofNat_of_mem_ofChar hb (by decide)).trans (by decide))

theorem scan_escape (b : UInt8) {t : Text} (h : ∀ b ∈ t, b ≠ doubleQuote ∧ b ≠ backslash) :
    scan .quoted (backslash :: b :: t) = (.quoted, 0) := by
  have hrest := scan_quoted h
  simp [scan_cons, Stance.step, hrest]

theorem scan_quotePiece (piece : Piece) : scan .quoted (quotePiece piece) = (.quoted, 0) := by
  cases piece with
  | broken b => exact scan_escape 0x78 (hex_plain 2 b.toNat)
  | char =>
    rw [quotePiece]
    split
    · decide
    · next hquote =>
      split
      · decide
      · next hslash =>
        split
        · exact scan_quoted (ofChar_plain (by simpa using hquote) (by simpa using hslash))
        · split
          · exact scan_escape _ fun _ hb => absurd hb not_mem_nil
          · rw [escapeCode]
            split
            · exact scan_escape 0x78 (hex_plain 2 _)
            · split
              · exact scan_escape 0x75 (hex_plain 4 _)
              · exact scan_escape 0x55 (hex_plain 8 _)

/-- A stretch of a dump that begins and ends outside quotes, and its weight. -/
def Weighs (t : Text) (n : Nat) : Prop := scan .outside t = (.outside, n)

instance (t : Text) (n : Nat) : Decidable (t.Weighs n) :=
  inferInstanceAs (Decidable (scan .outside t = (.outside, n)))

theorem Weighs.append {t u : Text} {n m : Nat} (ht : t.Weighs n) (hu : u.Weighs m) :
    (t ++ u).Weighs (n + m) := by
  rw [Weighs, scan_append, ht, hu]

theorem Weighs.unique {t : Text} {n m : Nat} (hn : t.Weighs n) (hm : t.Weighs m) : n = m :=
  congrArg Prod.snd (hn.symm.trans hm)

/-- **What stands in quotes weighs nothing.** -/
theorem weighs_quote (t : Text) : t.quote.Weighs 0 := by
  have hpieces : ∀ ps : List Piece, scan .quoted (ps.flatMap quotePiece) = (.quoted, 0) := by
    intro ps
    induction ps with
    | nil => rfl
    | cons piece rest ih =>
      simp only [flatMap_cons, scan_append, scan_quotePiece, ih, Nat.add_zero]
  have hopen : Stance.outside.step doubleQuote = (.quoted, 0) := by decide
  have hclose : scan .quoted [doubleQuote] = (.outside, 0) := by decide
  simp only [Weighs, quote, cons_append, scan_cons, hopen, scan_append, hpieces, hclose,
    Nat.add_zero]

end Text

/-! ## 2. Values -/

theorem Leaf.weighs_dump (l : Leaf) : l.dump.Weighs 1 := by
  have hclose : Weighs ")" 0 := by decide
  cases l with
  | blank => exact (by decide : Weighs "(unknown)" 1)
  | atom t => exact ((by decide : Weighs "(atom " 1).append t.weighs_quote).append hclose
  | global g =>
    exact ((by decide : Weighs "(global-ref " 1).append g.name.weighs_quote).append hclose
  | script s =>
    exact ((by decide : Weighs "(script-ref " 1).append s.name.weighs_quote).append hclose

theorem Head.weighs_dump (h : Head) : h.dump.Weighs 2 := by
  rw [dump]
  split
  · exact (by decide : Weighs "(clause" 2)
  · split
    · next t span _ => exact (by decide : Weighs "(call " 2).append t.weighs_quote
    · next s _ => exact (by decide : Weighs "(call-script " 2).append s.name.weighs_quote

namespace Value

mutual

theorem weighs_dump (v : Value) : v.dump.Weighs (bulk [v]) := by
  match v with
  | .leaf t l => exact l.weighs_dump
  | .call t h args =>
    rw [bulk_call]
    exact (h.weighs_dump.append (weighs_dumpAll args)).append (by decide : Weighs ")" 0)

theorem weighs_dumpAll (vs : List Value) : (dumpAll vs).Weighs (bulk vs) := by
  match vs with
  | [] => rfl
  | v :: rest =>
    rw [bulk_cons, ← Nat.zero_add (bulk [v])]
    exact ((by decide : Weighs " " 0).append (weighs_dump v)).append (weighs_dumpAll rest)

end

end Value

/-! ## 3. Programs -/

/-- What a declaration weighs besides its values. -/
def Declaration.tare : Declaration → Nat
  | .global g => if g.isConst then 2 else 1
  | .script s => 1 + if s.isMacro then 1 + s.params.length else 0

def Declaration.weight (a : Declaration) : Nat := a.tare + Value.bulk a.values

theorem Script.weighs_params (params : List Param) :
    Weighs (params.flatMap fun p => space :: p.dump) params.length := by
  induction params with
  | nil => rfl
  | cons p rest ih =>
    have hspace : Weighs " " 0 := by decide
    have hparam : p.dump.Weighs 1 :=
      ((((by decide : Weighs "(param " 1).append p.type.weighs_quote).append hspace).append
        p.name.weighs_quote).append (by decide : Weighs ")" 0)
    rw [flatMap_cons, length_cons, Nat.add_comm]
    exact ((hspace.append hparam).append ih)

/-- The brackets of a dumped declaration weigh what the declaration weighs.  Those inside quotes do
not count, so no text can make up for a value that is missing. -/
theorem Declaration.weighs_dump (a : Declaration) : a.dump.Weighs a.weight := by
  have hspace : Weighs " " 0 := by decide
  have hclose : Weighs ")" 0 := by decide
  cases a with
  | global g =>
    have hopen : (ofString (if g.isConst then "(constglobal " else "(global ")).Weighs
        (if g.isConst then 2 else 1) := by
      cases g.isConst <;> decide
    rw [dump, Global.dump]
    exact ((((((hopen.append g.type.weighs_quote).append hspace).append
      g.id.name.weighs_quote).append hspace).append g.value.weighs_dump).append hclose)
  | script s =>
    have hreturn : Weighs (if s.kind.hasReturnType then " " ++ s.returnType.quote else []) 0 := by
      split
      · exact hspace.append s.returnType.weighs_quote
      · rfl
    have hparams : Weighs (if s.isMacro then
          " (params" ++ s.params.flatMap (fun p => space :: p.dump) ++ ")" else [])
        (if s.isMacro then 1 + s.params.length else 0) := by
      split
      · exact ((by decide : Weighs " (params" 1).append (Script.weighs_params _)).append hclose
      · rfl
    rw [dump, Script.dump]
    exact ((((((((by decide : Weighs "(script " 1).append s.kind.name.weighs_quote).append
      hreturn).append hspace).append s.id.name.weighs_quote).append hparams).append
      (Value.weighs_dumpAll s.body)).append hclose)

def Program.weight (p : Program) (d : DeclId) : Nat :=
  ((p.declaration? d).map Declaration.weight).getD 0

theorem Program.weight_eq {p : Program} {d : DeclId} {a : Declaration}
    (h : p.declaration? d = some a) : p.weight d = a.tare + Value.bulk (p.content d) := by
  rw [weight, h, content_eq h]
  rfl

/-- **The dump of a program weighs what its declarations weigh.** -/
theorem Program.weighs_dump (p : Program) :
    p.dump.Weighs (1 + (p.table.entries.map p.weight).sum) := by
  have hentries : ∀ ds : List DeclId,
      Weighs ((ds.filterMap p.declaration?).flatMap fun a => space :: a.dump)
        (ds.map p.weight).sum := by
    intro ds
    induction ds with
    | nil => rfl
    | cons d rest ih =>
      rw [map_cons, sum_cons, weight]
      cases hd : p.declaration? d with
      | none =>
        rw [filterMap_cons_none hd, Option.map_none, Option.getD_none, Nat.zero_add]
        exact ih
      | some a =>
        rw [filterMap_cons_some hd, flatMap_cons, Option.map_some, Option.getD_some,
          ← Nat.zero_add a.weight]
        exact ((by decide : Weighs " " 0).append a.weighs_dump).append ih
  exact ((by decide : Weighs "(ast" 1).append (hentries p.table.entries)).append
    (by decide : Weighs ")" 0)

end HaloScript
