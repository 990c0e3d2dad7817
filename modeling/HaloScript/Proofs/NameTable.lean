/-
# What a name table holds

A name table comes from a history of additions and removals.  What it holds can be told from the
history alone: a name leads to what was added under it last, unless it was removed since
(`TableOp.latest?`).  The names stand in the order in which they were added first since they were
last removed (`TableOp.since?`), so an addition under a name that is there keeps the place, and one
after a removal comes last.

The table after each operation follows its history (`Table.Follows`).  An operation concerns one
name only, so all others keep what they lead to and their place.

All this is so in whatever ordered map the declarations are kept, as long as the map does what is
asked of it (`OrderedMap.Lawful`, `OrderedMap.after_laws`).
-/
import HaloScript.Proofs.Loading
import HaloScript.Proofs.Walk.Steps

namespace HaloScript

open List

/-! ## 1. Histories -/

/-- An operation on a name table. -/
inductive TableOp where
  | add (d : DeclId)
  | remove (name : Text)

namespace TableOp

def apply (t : Table) : TableOp → Table
  | .add d => t.add d
  | .remove name => (t.delete name).2

/-- The declaration that was added last under a name, unless the name has been removed since.  The
last operation of a history comes first. -/
def latest? (name : Text) : List TableOp → Option DeclId
  | [] => none
  | .add d :: earlier => if d.name = name then some d else latest? name earlier
  | .remove n :: earlier => if n = name then none else latest? name earlier

/-- How many operations came before the first addition under a name since its last removal. -/
def since? (name : Text) : List TableOp → Option Nat
  | [] => none
  | .add d :: earlier =>
    if d.name = name then some ((since? name earlier).getD earlier.length) else since? name earlier
  | .remove n :: earlier => if n = name then none else since? name earlier

/-- One name was added before another, each for the first time since its last removal. -/
def Before (ops : List TableOp) (a b : Text) : Prop :=
  ∃ i j, since? a ops = some i ∧ since? b ops = some j ∧ i < j

variable {ops : List TableOp} {name : Text}

theorem since?_lt {i : Nat} (h : since? name ops = some i) : i < ops.length := by
  induction ops generalizing i with
  | nil => cases h
  | cons op earlier ih =>
    have hlast : ∀ i, since? name earlier = some i → i < earlier.length + 1 := fun i hi =>
      Nat.lt_succ_of_lt (ih hi)
    cases op with
    | add =>
      rw [since?] at h
      split at h
      · obtain rfl := Option.some.inj h
        cases hsince : since? name earlier with
        | none => exact Nat.lt_succ_self _
        | some i => exact hlast i hsince
      · exact hlast i h
    | remove =>
      rw [since?] at h
      split at h
      · cases h
      · exact hlast i h

theorem isSome_since? : (since? name ops).isSome = (latest? name ops).isSome := by
  induction ops with
  | nil => rfl
  | cons op earlier ih =>
    cases op with
    | add d => by_cases hd : d.name = name <;> simp [since?, latest?, hd, ih]
    | remove n => by_cases hn : n = name <;> simp [since?, latest?, hn, ih]

end TableOp

/-! ## 2. One operation -/

namespace Table

open TableOp

variable {t : Table} {ops : List TableOp}

theorem mem_names_iff {name : Text} : name ∈ t.names ↔ (t.get? name).isSome = true := by
  simp [names, get?]

theorem get?_add (d : DeclId) (name : Text) :
    (t.add d).get? name = if d.name = name then some d else t.get? name := by
  rw [get?, add, insert_eq]
  exact find?_insertNamed _ d t.entries name

theorem get?_remove (hnodup : t.names.Nodup) (n name : Text) :
    (t.remove n).get? name = if n = name then none else t.get? name := by
  split
  · next hn =>
    refine find?_eq_none.mpr fun d hd heq => ?_
    exact name_ne_of_mem_remove hnodup hd ((eq_of_beq heq).trans hn.symm)
  · next hn =>
    unfold get? remove
    induction t.entries with
    | nil => rfl
    | cons e rest ih =>
      by_cases he : e.name = n
      · have hname : (e.name == name) = false := beq_eq_false_iff_ne.mpr (he ▸ hn)
        simp [he, he ▸ hname]
      · simp [he, find?_cons, ih]

/-- The table is what its history says. -/
structure Follows (ops : List TableOp) (t : Table) : Prop where
  nodup : t.names.Nodup
  get : ∀ name, t.get? name = latest? name ops
  order : t.names.Pairwise (Before ops)

theorem Follows.mem_names_iff (h : Follows ops t) {name : Text} :
    name ∈ t.names ↔ (since? name ops).isSome = true := by
  rw [Table.mem_names_iff, h.get, isSome_since?]

/-- **An addition** keeps the place of its name, or comes last. -/
theorem Follows.add (h : Follows ops t) (d : DeclId) : Follows (.add d :: ops) (t.add d) := by
  have hnames : (t.add d).names =
      if d.name ∈ t.names then t.names else t.names ++ [d.name] := by
    rw [names, Table.add, insert_eq]
    exact map_name_insertNamed _ d t.entries
  -- a name that is there was added first when it was before
  have hkept : ∀ name ∈ t.names, since? name (.add d :: ops) = since? name ops := by
    intro name hname
    obtain ⟨i, hi⟩ := Option.isSome_iff_exists.mp (h.mem_names_iff.mp hname)
    by_cases hd : d.name = name <;> simp [since?, hd, hi]
  have horder : t.names.Pairwise (Before (.add d :: ops)) := by
    refine h.order.imp_of_mem fun ha hb hab => ?_
    rwa [Before, hkept _ ha, hkept _ hb]
  refine ⟨nodup_names_add t d h.nodup, fun name => ?_, ?_⟩
  · rw [get?_add, latest?, h.get]
  · rw [hnames]
    split
    · exact horder
    · next hnew =>
      have hlast : since? d.name (.add d :: ops) = some ops.length := by
        have hnone : since? d.name ops = none := by simpa [h.mem_names_iff] using hnew
        rw [since?, if_pos rfl, hnone]
        rfl
      refine pairwise_append.mpr ⟨horder, pairwise_singleton _ _, fun a ha b hb => ?_⟩
      obtain rfl := mem_singleton.mp hb
      obtain ⟨i, hi⟩ := Option.isSome_iff_exists.mp (h.mem_names_iff.mp ha)
      exact ⟨i, _, (hkept a ha).trans hi, hlast, since?_lt hi⟩

/-- **A removal** concerns its own name only. -/
theorem Follows.remove (h : Follows ops t) (name : Text) :
    Follows (.remove name :: ops) (t.remove name) := by
  have hsub : (t.remove name).names.Sublist t.names := (remove_sublist t name).map _
  have hkept : ∀ n ∈ (t.remove name).names, since? n (.remove name :: ops) = since? n ops := by
    intro n hn
    obtain ⟨d, hd, rfl⟩ := mem_map.mp hn
    rw [since?, if_neg (name_ne_of_mem_remove h.nodup hd).symm]
  refine ⟨h.nodup.sublist hsub, fun n => ?_, (h.order.sublist hsub).imp_of_mem fun ha hb hab => ?_⟩
  · rw [get?_remove h.nodup, latest?, h.get]
  · rwa [Before, hkept _ ha, hkept _ hb]

/-! ## 3. Histories and tables -/

def after (ops : List TableOp) : Table := ops.foldr (fun op t => op.apply t) {}

theorem follows_after (ops : List TableOp) : Follows ops (after ops) := by
  induction ops with
  | nil => exact ⟨nodup_nil, fun _ => rfl, .nil⟩
  | cons op earlier ih =>
    cases op with
    | add d => exact ih.add d
    | remove name => exact ih.remove name

theorem delete_fst (t : Table) (name : Text) : (t.delete name).1 = (t.get? name).isSome := by
  rw [delete, get?, isSome_find?]

end Table

/-! ## 4. Tables in ordered maps -/

/-- A kind of ordered maps, as far as a name table makes use of them. -/
structure OrderedMap (κ α : Type) where
  Map : Type
  empty : Map
  get? : Map → κ → Option α
  set : Map → κ → α → Map
  /-- Takes a key out, and tells what was there. -/
  delete : Map → κ → Option α × Map
  /-- The pairs from the oldest to the newest. -/
  pairs : Map → List (κ × α)

namespace OrderedMap

/-- What an ordered map is taken to do: a key that is set again keeps its place, a new one comes
last, and one that is deleted is gone. -/
structure Lawful {κ α : Type} [BEq κ] (M : OrderedMap κ α) : Prop where
  pairs_empty : M.pairs M.empty = []
  get?_eq : ∀ m k, M.get? m k = (M.pairs m).lookup k
  pairs_set_old : ∀ m k v, (M.get? m k).isSome = true →
    M.pairs (M.set m k v) = (M.pairs m).map fun q => if q.1 == k then (k, v) else q
  pairs_set_new : ∀ m k v, M.get? m k = none → M.pairs (M.set m k v) = M.pairs m ++ [(k, v)]
  delete_fst : ∀ m k, (M.delete m k).1 = M.get? m k
  pairs_delete : ∀ m k, M.pairs (M.delete m k).2 = (M.pairs m).filter (·.1 != k)

open TableOp

variable (M : OrderedMap Text DeclId)

def add (m : M.Map) (d : DeclId) : M.Map := M.set m d.name d

def remove (m : M.Map) (name : Text) : Bool × M.Map :=
  ((M.delete m name).1.isSome, (M.delete m name).2)

def names (m : M.Map) : List Text := (M.pairs m).map Prod.fst

def entries (m : M.Map) : List DeclId := (M.pairs m).map Prod.snd

def apply (m : M.Map) : TableOp → M.Map
  | .add d => M.add m d
  | .remove name => (M.remove m name).2

def after (ops : List TableOp) : M.Map := ops.foldr (fun op m => M.apply m op) M.empty

/-- A declaration with its name in front, as an ordered map has it. -/
def named (d : DeclId) : Text × DeclId := (d.name, d)

theorem lookup_named (ds : List DeclId) (name : Text) :
    (ds.map named).lookup name = ds.find? (·.name == name) := by
  induction ds with
  | nil => rfl
  | cons d ds ih => rw [map_cons, named, lookup_cons, find?_cons, ih, BEq.comm]

/-- Where names are unique, taking the place of one entry is an exchange at that name. -/
theorem insert_eq_map {d : DeclId} {ds : List DeclId} (hnodup : (ds.map DeclId.name).Nodup)
    (hmem : d.name ∈ ds.map DeclId.name) :
    Table.insert d ds = ds.map fun e => if e.name == d.name then d else e := by
  induction ds with
  | nil => cases hmem
  | cons e ds ih =>
    obtain ⟨hnew, hnodup⟩ := nodup_cons.mp hnodup
    rw [Table.insert, map_cons]
    by_cases he : e.name = d.name
    · have hrest : ∀ e' ∈ ds, (if e'.name == d.name then d else e') = e' := fun e' he' =>
        if_neg fun h => hnew (he.trans (eq_of_beq h).symm ▸ mem_map_of_mem he')
      rw [map_congr_left hrest, map_id', if_pos (beq_iff_eq.mpr he), if_pos (beq_iff_eq.mpr he)]
    · rw [if_neg (mt eq_of_beq he), if_neg (mt eq_of_beq he),
        ih hnodup ((mem_cons.mp hmem).resolve_left (Ne.symm he))]

/-- Where names are unique, taking out the first entry under one is taking out all. -/
theorem eraseP_eq_filter {ds : List DeclId} (hnodup : (ds.map DeclId.name).Nodup) (name : Text) :
    ds.eraseP (·.name == name) = ds.filter (·.name != name) := by
  induction ds with
  | nil => rfl
  | cons d ds ih =>
    obtain ⟨hnew, hnodup⟩ := nodup_cons.mp hnodup
    by_cases hd : d.name = name
    · have hrest : ∀ e ∈ ds, (e.name != name) = true := fun e he => by
        rw [bne_iff_ne]
        rintro rfl
        exact hnew (hd ▸ mem_map_of_mem he)
      simp [hd, filter_eq_self.mpr hrest]
    · simp [hd, ih hnodup]

/-- **Every lawful map holds what the table holds**, pair by pair.  That no name is there twice is
what makes replacing a pair and taking one out the same in both. -/
theorem pairs_after {M : OrderedMap Text DeclId} (hM : M.Lawful) (ops : List TableOp) :
    M.pairs (M.after ops) = (Table.after ops).entries.map named := by
  induction ops with
  | nil => exact hM.pairs_empty
  | cons op earlier ih =>
    have hnodup : ((Table.after earlier).entries.map DeclId.name).Nodup :=
      (Table.follows_after earlier).nodup
    have hget := fun name => hM.get?_eq (M.after earlier) name
    simp only [ih, lookup_named] at hget
    cases op with
    | add d =>
      change M.pairs (M.set (M.after earlier) d.name d) =
        (Table.insert d (Table.after earlier).entries).map named
      cases hfound : M.get? (M.after earlier) d.name with
      | none =>
        rw [hM.pairs_set_new _ _ _ hfound, ih]
        rw [hget, find?_eq_none] at hfound
        rw [Table.insert_eq, insertNamed_of_new fun e he => by simpa using hfound e he, map_append]
        rfl
      | some =>
        rw [hM.pairs_set_old _ _ _ (hfound ▸ rfl), ih, map_map]
        rw [hget] at hfound
        have hname := find?_some hfound
        rw [insert_eq_map hnodup (mem_map.mpr ⟨_, mem_of_find?_eq_some hfound, eq_of_beq hname⟩),
          map_map]
        exact map_congr_left fun e _ => (apply_ite named _ _ _).symm
    | remove name =>
      change M.pairs (M.delete (M.after earlier) name).2 =
        ((Table.after earlier).entries.eraseP (·.name == name)).map named
      rw [hM.pairs_delete, ih, eraseP_eq_filter hnodup, filter_map]
      rfl

/-- **What a name table holds**, after any history of additions and removals, in whatever lawful
map it is kept.  A name leads to the declaration that was added last under it, unless it was removed
since.  A removal tells whether the name led anywhere, and if not, it changes nothing.  Names are
listed once each, if they lead anywhere, in the order in which they were added first since their
last removal.  The entries are what the names lead to, each under its own name.  And the table of a
program is such a map: it cannot be told apart from one that is kept elsewhere. -/
theorem after_laws {M : OrderedMap Text DeclId} (hM : M.Lawful) (ops : List TableOp) :
    (∀ name, M.get? (M.after ops) name = latest? name ops) ∧
      (∀ name, (M.remove (M.after ops) name).1 = (M.get? (M.after ops) name).isSome ∧
        (M.get? (M.after ops) name = none →
          M.pairs (M.remove (M.after ops) name).2 = M.pairs (M.after ops))) ∧
      (M.names (M.after ops)).Nodup ∧
      (∀ name, name ∈ M.names (M.after ops) ↔ (latest? name ops).isSome = true) ∧
      (M.names (M.after ops)).Pairwise (Before ops) ∧
      (M.entries (M.after ops)).map some = (M.names (M.after ops)).map (M.get? (M.after ops)) ∧
      M.names (M.after ops) = (M.entries (M.after ops)).map DeclId.name ∧
      (Table.after ops).names = M.names (M.after ops) ∧
      (Table.after ops).entries = M.entries (M.after ops) ∧
      ∀ name, (Table.after ops).get? name = M.get? (M.after ops) name ∧
        ((Table.after ops).delete name).1 = (M.remove (M.after ops) name).1 := by
  have h := Table.follows_after ops
  have hpairs := pairs_after hM ops
  have hnames : M.names (M.after ops) = (Table.after ops).names := by
    rw [names, hpairs, map_map]
    rfl
  have hentries : M.entries (M.after ops) = (Table.after ops).entries := by
    rw [entries, hpairs, map_map]
    exact map_id _
  have hget : M.get? (M.after ops) = (Table.after ops).get? := funext fun name => by
    rw [hM.get?_eq, hpairs, lookup_named]
    rfl
  have hremove : ∀ name, (M.remove (M.after ops) name).1 =
      ((Table.after ops).get? name).isSome := fun name => by rw [remove, hM.delete_fst, hget]
  rw [hnames, hentries, hget]
  refine ⟨h.get, fun name => ⟨hremove name, fun hnone => ?_⟩, h.nodup, fun name => ?_, h.order, ?_,
    rfl, rfl, rfl, fun name => ⟨rfl, ?_⟩⟩
  · rw [remove, hM.pairs_delete, hpairs, filter_eq_self, forall_mem_map]
    intro d hd
    simpa [named] using find?_eq_none.mp hnone d hd
  · rw [Table.mem_names_iff, h.get]
  · rw [Table.names, map_map]
    refine map_congr_left fun d hd => ?_
    exact ((find?_name_iff h.nodup).mpr ⟨hd, rfl⟩).symm
  · rw [hremove, Table.delete_fst]

/-- Pairs in a list, in which the first one with a key counts. -/
def assoc : OrderedMap Text DeclId where
  Map := List (Text × DeclId)
  empty := []
  get? m k := m.lookup k
  set m k v :=
    if (m.lookup k).isSome then m.map fun q => if q.1 == k then (k, v) else q else m ++ [(k, v)]
  delete m k := (m.lookup k, m.filter (·.1 != k))
  pairs m := m

theorem lawful_assoc : assoc.Lawful where
  pairs_empty := rfl
  get?_eq _ _ := rfl
  pairs_set_old _ _ _ h := if_pos h
  pairs_set_new _ _ _ h := if_neg (by simp [show lookup _ _ = none from h])
  delete_fst _ _ := rfl
  pairs_delete _ _ := rfl

/-- A name that is replaced keeps its place, and one that was removed comes back last. -/
theorem after_laws_assoc :
    let ops : List TableOp := [.add (.global ⟨"a", 2⟩), .remove "a", .add (.script ⟨"b", 1⟩),
      .add (.global ⟨"b", 1⟩), .add (.global ⟨"a", 0⟩)]
    assoc.Lawful ∧ assoc.names (assoc.after ops) = ["b", "a"] ∧
      (Table.after ops).entries = assoc.entries (assoc.after ops) ∧
      (assoc.names (assoc.after ops)).Pairwise (Before ops) := by
  intro ops
  obtain ⟨-, -, -, -, horder, -, -, -, hentries, -⟩ := after_laws lawful_assoc ops
  exact ⟨lawful_assoc, by decide, hentries, horder⟩

end OrderedMap

end HaloScript
