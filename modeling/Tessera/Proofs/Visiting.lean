import Mathlib.Data.List.Nodup
import Tessera.Proofs.Shaping
import Tessera.Source.Document

/-!
# The order in which a document is visited

The matrices of a document and their data stand under names, in no order that means
anything. Matrices are sorted before they are declared, so that the order in which they are visited
does not count: names with the same canonical form, which the order would tell apart, are declared
twice and refused. Data are not sorted, and of several under names with the same canonical form the
last one stays. So the order counts for these, and for nothing else.

* `declare_perm`: the order of the matrices.
* `lastRows`, `attachAll_eq_ok`: the data of each matrix are those that come last.
* `Described`, `ofDocument_eq_ok`: the parts of a program, and where they come from.
* `ofDocument_visited`: two orders give the same program, or none, if the same data come last.
* `spelled_depends`: they do not otherwise.
-/

namespace Tessera.Program

section Names

variable {a b c : String}

theorem nameLe_total (a b : String) : (nameLe a b || nameLe b a) = true := by
  unfold nameLe
  cases roleNames.idxOf? a <;> cases roleNames.idxOf? b
  · simpa using String.le_total a b
  · rfl
  · rfl
  · simpa using Nat.le_total _ _

theorem nameLe_trans (h : nameLe a b = true) (h' : nameLe b c = true) : nameLe a c = true := by
  unfold nameLe at *
  cases ha : roleNames.idxOf? a <;> cases hb : roleNames.idxOf? b <;>
    cases hc : roleNames.idxOf? c <;> simp only [ha, hb, hc, decide_eq_true_eq] at h h' ⊢
  case none.none.none => exact String.le_trans h h'
  case some.some.some => exact Nat.le_trans h h'
  all_goals simp at h h'

/-- Names that come before each other are the same. -/
theorem nameLe_antisymm (h : nameLe a b = true) (h' : nameLe b a = true) : a = b := by
  unfold nameLe at h h'
  cases ha : roleNames.idxOf? a <;> cases hb : roleNames.idxOf? b <;>
    simp only [ha, hb, decide_eq_true_eq] at h h'
  · exact String.le_antisymm h h'
  · exact absurd h (by decide)
  · exact absurd h' (by decide)
  · obtain ⟨_, hi, -⟩ := List.idxOf?_eq_some_iff.1 ha
    obtain ⟨_, hj, -⟩ := List.idxOf?_eq_some_iff.1 hb
    rw [← hi, ← hj]
    congr 1
    exact Nat.le_antisymm h h'

end Names

section Declare

variable {ms ms' : List (String × List Int)} {declared : List Declared}

/-- **The order of the matrices does not count** if no two have the same canonical name. -/
theorem declare_perm (h : ms.Perm ms') (hnodup : (ms.map fun m => Text.canonical m.1).Nodup) :
    declare ms = declare ms' := by
  have hsorted : ∀ xs : List (String × List Int), List.Pairwise
      (fun a b => nameLe (Text.canonical a.1) (Text.canonical b.1) = true)
      (xs.mergeSort fun a b => nameLe (Text.canonical a.1) (Text.canonical b.1)) :=
    List.pairwise_mergeSort (fun _ _ _ => nameLe_trans) fun _ _ => nameLe_total _ _
  have hsame : ms.mergeSort (fun a b => nameLe (Text.canonical a.1) (Text.canonical b.1)) =
      ms'.mergeSort fun a b => nameLe (Text.canonical a.1) (Text.canonical b.1) := by
    -- sorted lists of the same members are the same, as no two members tie
    refine List.Perm.eq_of_pairwise (fun a b ha hb hab hba => ?_) (hsorted ms) (hsorted ms')
      ((List.mergeSort_perm ms _).trans (h.trans (List.mergeSort_perm ms' _).symm))
    rw [List.mem_mergeSort] at ha hb
    exact List.inj_on_of_nodup_map hnodup ha (h.mem_iff.2 hb) (nameLe_antisymm hab hba)
  unfold declare
  rw [hsame]

/-- Matrices are declared under their canonical names. -/
theorem declare_names (h : declare ms = .ok declared) :
    (declared.map (·.name)).Perm (ms.map fun m => Text.canonical m.1) := by
  have hnames : ∀ {xs : List (String × List Int)} {ys : List Declared},
      List.Forall₂ (fun x y => y.name = Text.canonical x.1) xs ys →
        ys.map (·.name) = xs.map fun m => Text.canonical m.1 := fun hxs => by
    induction hxs with
    | nil => rfl
    | cons hx _ ih => rw [List.map_cons, List.map_cons, hx, ih]
  unfold declare at h
  rw [hnames ((mapM_eq_ok.1 h).imp fun m out hm => ?_)]
  · exact (List.mergeSort_perm ms _).map _
  · obtain ⟨name, shape⟩ := m
    simp only at hm
    split at hm
    · obtain rfl := Outcome.pure_eq_ok.1 hm
      rfl
    · simp at hm

/-- Matrices that pass their checks have different names. -/
theorem checkMatrices_nodup {seen : List String} (h : checkMatrices seen declared = .ok ()) :
    (declared.map (·.name)).Nodup ∧ ∀ m ∈ declared, m.name ∉ seen := by
  induction declared generalizing seen with
  | nil => simp
  | cons m ms ih =>
    unfold checkMatrices at h
    simp only [Outcome.refused_eq_ok] at h
    obtain ⟨-, hseen, h⟩ := h
    have hrest : checkMatrices (m.name :: seen) ms = .ok () := by
      cases hd : m.data with
      | none =>
        rw [hd] at h
        exact h
      | some d =>
        rw [hd] at h
        simp only [Outcome.refused_eq_ok] at h
        exact h.2
    obtain ⟨hnodup, hnew⟩ := ih hrest
    simp only [List.mem_cons, not_or] at hnew
    refine ⟨List.nodup_cons.2 ⟨fun hm => ?_, hnodup⟩, List.forall_mem_cons.2
      ⟨by simpa using hseen, fun m' hm' => (hnew m' hm').2⟩⟩
    obtain ⟨m', hm', hname⟩ := List.mem_map.1 hm
    exact (hnew m' hm').1 hname

end Declare

section Attach

variable {ms out : List Declared} {name : String} {rows : List (List Int)}
  {data : List (String × List (List Int))}

/-- A matrix with data, if it is the one of the given name. -/
def give (name : String) (data : Matrix) (m : Declared) : Declared :=
  if m.name = name then { m with data := some data } else m

@[simp] theorem give_name (name : String) (data : Matrix) (m : Declared) :
    (give name data m).name = m.name := by
  unfold give
  split <;> rfl

/-- Data change no name. -/
theorem attach_names (h : attach ms name rows = .ok out) :
    out.map (·.name) = ms.map (·.name) := by
  unfold attach at h
  split at h
  · simp at h
  split at h
  · simp at h
  rename_i i _ _ data _
  obtain rfl := Except.ok.inj h
  refine List.ext_getElem? fun k => ?_
  rw [List.getElem?_map, List.getElem?_map, List.getElem?_modify]
  by_cases hik : i = k <;> cases ms[k]? <;> simp [hik]

theorem attachAll_names
    (h : data.foldlM (fun ms (name, rows) => attach ms name rows) ms = .ok out) :
    out.map (·.name) = ms.map (·.name) := by
  induction data generalizing ms with
  | nil =>
    obtain rfl := Outcome.pure_eq_ok.1 h
    rfl
  | cons x data ih =>
    obtain ⟨ms', hx, h⟩ := foldlM_cons_eq_ok.1 h
    rw [ih h, attach_names hx]

/-- Only one matrix has the name that the first of it has. -/
theorem modify_eq_give {i : Nat} (hnodup : (ms.map (·.name)).Nodup)
    (h : ms.findIdx? (·.name = name) = some i) (data : Matrix) :
    ms.modify i ({ · with data := some data }) = ms.map (give name data) := by
  obtain ⟨hi, hname, -⟩ := List.findIdx?_eq_some_iff_getElem.1 h
  rw [decide_eq_true_eq] at hname
  refine List.ext_getElem? fun k => ?_
  rw [List.getElem?_modify, List.getElem?_map]
  cases hk : ms[k]? with
  | none => rfl
  | some m =>
    obtain ⟨hlt, rfl⟩ := List.getElem?_eq_some_iff.1 hk
    have hiff : i = k ↔ ms[k].name = name := by
      refine ⟨fun hik => by subst hik; exact hname, fun heq => ?_⟩
      have hinj := List.pairwise_iff_getElem.1 hnodup
      simp only [List.length_map, List.getElem_map] at hinj
      rcases Nat.lt_trichotomy i k with hlt' | rfl | hlt'
      · exact absurd (hname.trans heq.symm) (hinj i k hi hlt hlt')
      · rfl
      · exact absurd (heq.trans hname.symm) (hinj k i hlt hi hlt')
    simp only [Option.map_eq_map, Option.map_some, give, ← hiff]

/-- **Data go to the matrix of their canonical name**, if there is only one. -/
theorem attach_eq_ok (hnodup : (ms.map (·.name)).Nodup) :
    attach ms name rows = .ok out ↔ Text.canonical name ∈ ms.map (·.name) ∧
      ∃ data, Matrix.ofRows rows = .ok data ∧ out = ms.map (give (Text.canonical name) data) := by
  unfold attach
  generalize Text.canonical name = n
  cases hfind : ms.findIdx? (·.name = n) with
  | none =>
    have hnone : n ∉ ms.map (·.name) := by
      simpa using List.findIdx?_eq_none_iff.1 hfind
    simp [hnone]
  | some i =>
    have hmem : n ∈ ms.map (·.name) := by
      obtain ⟨hi, hname, -⟩ := List.findIdx?_eq_some_iff_getElem.1 hfind
      exact List.mem_map.2 ⟨_, List.getElem_mem hi, of_decide_eq_true hname⟩
    cases Matrix.ofRows rows with
    | error e => simp
    | ok data =>
      simp only [hmem, modify_eq_give hnodup hfind, true_and]
      constructor
      · intro h
        exact ⟨data, rfl, (Except.ok.inj h).symm⟩
      · rintro ⟨_, hdata, rfl⟩
        obtain rfl := Except.ok.inj hdata
        rfl

/-- The rows that come last of all under names with the given canonical form. -/
def lastRows (data : List (String × List (List Int))) (name : String) :
    Option (List (List Int)) :=
  (data.reverse.find? fun x => Text.canonical x.1 = name).map Prod.snd

theorem lastRows_cons (x : String × List (List Int)) (name : String) :
    lastRows (x :: data) name =
      (lastRows data name).or (if Text.canonical x.1 = name then some x.2 else none) := by
  unfold lastRows
  rw [List.reverse_cons, List.find?_append, List.find?_cons, List.find?_nil]
  cases data.reverse.find? fun x => Text.canonical x.1 = name with
  | some y => rfl
  | none =>
    by_cases hx : Text.canonical x.1 = name <;> simp [hx]

/-- A matrix with the data that come last under its name. -/
def supplied (data : List (String × List (List Int))) (m : Declared) : Declared :=
  match lastRows data m.name with
  | none => m
  | some rows => { m with data := (Matrix.ofRows rows).toOption }

theorem supplied_cons {x : String × List (List Int)} {matrix : Matrix}
    (h : Matrix.ofRows x.2 = .ok matrix) (m : Declared) :
    supplied data (give (Text.canonical x.1) matrix m) = supplied (x :: data) m := by
  unfold supplied
  rw [give_name, lastRows_cons]
  unfold give
  generalize Text.canonical x.1 = n
  cases lastRows data m.name with
  | some rows => by_cases hname : m.name = n <;> simp [hname]
  | none =>
    by_cases hname : m.name = n
    · simp [hname, h, Except.toOption]
    · simp [hname, Ne.symm hname]

/-- **Every matrix has the data that come last under its name.** -/
theorem attachAll_eq_ok (hnodup : (ms.map (·.name)).Nodup) :
    data.foldlM (fun ms (name, rows) => attach ms name rows) ms = .ok out ↔
      (∀ x ∈ data, Text.canonical x.1 ∈ ms.map (·.name) ∧ ∃ m, Matrix.ofRows x.2 = .ok m) ∧
        out = ms.map (supplied data) := by
  -- what the first entry gives stays unless a later one overrides it, which `lastRows` says as well
  induction data generalizing ms with
  | nil =>
    have hid : ms.map (supplied []) = ms := List.map_id ms
    rw [hid, List.foldlM_nil, Outcome.pure_eq_ok]
    simp [eq_comm]
  | cons x data ih =>
    rw [foldlM_cons_eq_ok, List.forall_mem_cons]
    have hnames : ∀ matrix, (ms.map (give (Text.canonical x.1) matrix)).map (·.name) =
        ms.map (·.name) := fun matrix => by simp
    constructor
    · rintro ⟨ms', hx, h⟩
      obtain ⟨hmem, matrix, hrows, rfl⟩ := (attach_eq_ok hnodup).1 hx
      obtain ⟨hall, rfl⟩ := (ih (by rwa [hnames])).1 h
      rw [hnames] at hall
      refine ⟨⟨⟨hmem, matrix, hrows⟩, hall⟩, ?_⟩
      rw [List.map_map]
      exact List.map_congr_left fun m _ => supplied_cons hrows m
    · rintro ⟨⟨⟨hmem, matrix, hrows⟩, hall⟩, rfl⟩
      refine ⟨_, (attach_eq_ok hnodup).2 ⟨hmem, matrix, hrows, rfl⟩, (ih (by rwa [hnames])).2 ?_⟩
      rw [hnames, List.map_map]
      exact ⟨hall, List.map_congr_left fun m _ => (supplied_cons hrows m).symm⟩

end Attach

section Documents

/-- The parts of a program, and the members of its document that they come from. -/
structure Described (d : Document) (p : Program) : Prop where
  matrices : ∃ declared, declare d.matrices = .ok declared ∧
    d.data.foldlM (fun ms (name, rows) => attach ms name rows) declared = .ok p.matrices
  range : valueRange d.valueRange = .ok (p.valueMin, p.valueMax)
  base : readAddress "BASE_ADDRESS" d.baseAddress = .ok p.baseAddress
  origin : readAddress "DRAM_OFFSET" d.dramOffset = .ok p.dramOffset
  gemm : d.gemm.mapM readGemm = .ok p.gemm
  alu : d.alu.zipIdx.mapM (fun (entry, i) => Outcome.within s!"alu[{i}]" (readAlu entry)) = .ok p.alu
  name : p.name = d.name
  clip : p.clip = d.clip
  nonSquareInput : p.nonSquareInput = d.nonSquareInput
  seed : p.seed = d.seed
  valid : p.validate = .ok ()

/-- **What a document describes**, part by part. -/
theorem ofDocument_eq_ok {d : Document} {p : Program} : ofDocument d = .ok p ↔ Described d p := by
  unfold ofDocument
  constructor
  · intro h
    obtain ⟨⟨lo, hi⟩, hrange, h⟩ := Outcome.bind_eq_ok.1 h
    obtain ⟨base, hbase, h⟩ := Outcome.bind_eq_ok.1 h
    obtain ⟨origin, horigin, h⟩ := Outcome.bind_eq_ok.1 h
    obtain ⟨declared, hdeclared, h⟩ := Outcome.bind_eq_ok.1 h
    obtain ⟨ms, hms, h⟩ := Outcome.bind_eq_ok.1 h
    obtain ⟨gemm, hgemm, h⟩ := Outcome.bind_eq_ok.1 h
    obtain ⟨alu, halu, h⟩ := Outcome.bind_eq_ok.1 h
    obtain ⟨⟨⟩, hvalid, h⟩ := Outcome.bind_eq_ok.1 h
    obtain rfl := Outcome.pure_eq_ok.1 h
    exact ⟨⟨declared, hdeclared, hms⟩, hrange, hbase, horigin, hgemm, halu, rfl, rfl, rfl, rfl, hvalid⟩
  · rintro ⟨⟨declared, hdeclared, hms⟩, hrange, hbase, horigin, hgemm, halu, hname, hclip, hsquare,
      hseed, hvalid⟩
    refine Outcome.bind_ok hrange (Outcome.bind_ok hbase (Outcome.bind_ok horigin ?_))
    refine Outcome.bind_ok hdeclared (Outcome.bind_ok hms ?_)
    refine Outcome.bind_ok hgemm (Outcome.bind_ok halu ?_)
    obtain ⟨name, ms, gemm, alu, base, origin, clip, square, seed, lo, hi⟩ := p
    simp only at hname hclip hsquare hseed
    subst hname hclip hsquare hseed
    exact Outcome.bind_ok hvalid rfl

/-- A document that describes a program has no two matrices with the same canonical name. -/
theorem Described.nodup {d : Document} {p : Program} (h : Described d p) :
    (d.matrices.map fun m => Text.canonical m.1).Nodup := by
  obtain ⟨declared, hdeclared, hms⟩ := h.matrices
  -- the checks see the canonical names, in the order of the declaration
  have hnodup := (checkMatrices_nodup (validate_checks h.valid).1).1
  rw [attachAll_names hms] at hnodup
  exact (declare_names hdeclared).nodup_iff.1 hnodup

variable {d : Document} {ms : List (String × List Int)} {data : List (String × List (List Int))}
  {p p' : Program}

theorem Described.perm (hmatrices : d.matrices.Perm ms) (hdata : d.data.Perm data)
    (hlast : ∀ name, lastRows d.data name = lastRows data name) (h : Described d p) :
    Described { d with matrices := ms, data := data } p := by
  obtain ⟨declared, hdeclared, hms⟩ := h.matrices
  have hdistinct := (declare_names hdeclared).nodup_iff.2 h.nodup
  obtain ⟨hall, hsupplied⟩ := (attachAll_eq_ok hdistinct).1 hms
  refine { h with matrices := ⟨declared, ?_, (attachAll_eq_ok hdistinct).2 ⟨?_, ?_⟩⟩ }
  · rw [← declare_perm hmatrices h.nodup]
    exact hdeclared
  · exact fun x hx => hall x (hdata.mem_iff.2 hx)
  · rw [hsupplied]
    refine List.map_congr_left fun m _ => ?_
    unfold supplied
    rw [hlast]

/-- The same matrix, but for its data, and with the same data if `same` holds. -/
structure Redeclared (same : Prop) (m m' : Declared) : Prop where
  name : m'.name = m.name
  rows : m'.rows = m.rows
  cols : m'.cols = m.cols
  data : same → m' = m

theorem supplied_redeclared (data data' : List (String × List (List Int))) (m : Declared) :
    Redeclared (lastRows data (supplied data m).name = lastRows data' (supplied data m).name)
      (supplied data m) (supplied data' m) := by
  have hshape : ∀ data, (supplied data m).name = m.name ∧ (supplied data m).rows = m.rows ∧
      (supplied data m).cols = m.cols := fun data => by
    unfold supplied
    split <;> exact ⟨rfl, rfl, rfl⟩
  obtain ⟨hname, hrows, hcols⟩ := hshape data
  obtain ⟨hname', hrows', hcols'⟩ := hshape data'
  refine ⟨hname'.trans hname.symm, hrows'.trans hrows.symm, hcols'.trans hcols.symm, fun hsame => ?_⟩
  rw [hname] at hsame
  unfold supplied
  rw [hsame]

/-- Two orders that both give a program give the same but for data that do not come last in both. -/
theorem Described.redeclared (hmatrices : d.matrices.Perm ms) (h : Described d p)
    (h' : Described { d with matrices := ms, data := data } p') :
    p' = { p with matrices := p'.matrices } ∧
      List.Forall₂ (fun m m' => Redeclared (lastRows d.data m.name = lastRows data m.name) m m')
        p.matrices p'.matrices := by
  obtain ⟨declared, hdeclared, hms⟩ := h.matrices
  obtain ⟨declared', hdeclared', hms'⟩ := h'.matrices
  have hdistinct := (declare_names hdeclared).nodup_iff.2 h.nodup
  rw [← declare_perm hmatrices h.nodup, hdeclared] at hdeclared'
  obtain rfl := Except.ok.inj hdeclared'
  constructor
  · have hrange := Prod.mk.inj (Except.ok.inj (h.range.symm.trans h'.range))
    have hbase := Except.ok.inj (h.base.symm.trans h'.base)
    have horigin := Except.ok.inj (h.origin.symm.trans h'.origin)
    have hgemm := Except.ok.inj (h.gemm.symm.trans h'.gemm)
    have halu := Except.ok.inj (h.alu.symm.trans h'.alu)
    have hname := h.name.trans h'.name.symm
    have hclip := h.clip.trans h'.clip.symm
    have hsquare := h.nonSquareInput.trans h'.nonSquareInput.symm
    have hseed := h.seed.trans h'.seed.symm
    obtain ⟨name, matrices, gemm, alu, base, origin, clip, square, seed, lo, hi⟩ := p
    obtain ⟨name', matrices', gemm', alu', base', origin', clip', square', seed', lo', hi'⟩ := p'
    simp_all
  · rw [((attachAll_eq_ok hdistinct).1 hms).2, ((attachAll_eq_ok hdistinct).1 hms').2,
      List.forall₂_map_left_iff, List.forall₂_map_right_iff, List.forall₂_same]
    exact fun m _ => supplied_redeclared d.data data m

/-- **The order counts for nothing but data whose names have the same canonical form.** However the
matrices and the data of a document are visited, the program is the same, or there is none, as long
as of such data the same come last. And where they do not, but there are two programs, these differ in
such data only. -/
theorem ofDocument_visited (d : Document) {ms : List (String × List Int)}
    {data : List (String × List (List Int))} (hmatrices : d.matrices.Perm ms)
    (hdata : d.data.Perm data) :
    ((∀ name, lastRows d.data name = lastRows data name) → ∀ p : Program,
      ofDocument d = .ok p ↔ ofDocument { d with matrices := ms, data := data } = .ok p) ∧
    ∀ p p' : Program, ofDocument d = .ok p →
      ofDocument { d with matrices := ms, data := data } = .ok p' →
        p' = { p with matrices := p'.matrices } ∧
          List.Forall₂ (fun m m' => Redeclared (lastRows d.data m.name = lastRows data m.name) m m')
            p.matrices p'.matrices := by
  refine ⟨fun hlast p => ?_, fun p p' h h' => ?_⟩
  · rw [ofDocument_eq_ok, ofDocument_eq_ok]
    constructor
    · exact Described.perm hmatrices hdata hlast
    · exact Described.perm hmatrices.symm hdata.symm fun name => (hlast name).symm
  · exact (ofDocument_eq_ok.1 h).redeclared hmatrices (ofDocument_eq_ok.1 h')

/-- An accumulator whose data are spelled in two ways, and another matrix. -/
def spelled (first second : String × Int) : Document where
  name := ""
  matrices := [("OTHER", [1, 1]), ("ACCUMULATOR", [1, 1])]
  data := [(first.1, [[first.2]]), (second.1, [[second.2]])]
  gemm := none
  alu := [[(⟨[], []⟩, .string "RELU")]]
  baseAddress := none
  dramOffset := none
  clip := false
  nonSquareInput := false
  seed := 0
  valueRange := none

/-- The program of the accumulator. -/
def plainRelu (v : Int) : Program where
  name := ""
  matrices := [⟨"ACCUMULATOR", 1, 1, some ⟨1, 1, #[v]⟩⟩, ⟨"OTHER", 1, 1, none⟩]
  alu := [.relu none]

/-- Of the data in two spellings those that come last stay. -/
theorem ofDocument_spelled {first second : String} (h : Text.canonical first = accumulatorName)
    (h' : Text.canonical second = accumulatorName) (v w : Int) :
    ofDocument (spelled (first, v) (second, w)) = .ok (plainRelu w) := by
  have hdeclared : declare [("OTHER", [1, 1]), ("ACCUMULATOR", [1, 1])] =
      .ok [⟨"ACCUMULATOR", 1, 1, none⟩, ⟨"OTHER", 1, 1, none⟩] := by
    rw [declare_perm (List.Perm.swap _ _ _) (by decide)]
    unfold declare
    rw [List.mergeSort_of_pairwise (by decide)]
    rfl
  refine ofDocument_eq_ok.2 ⟨⟨_, hdeclared, (attachAll_eq_ok (by decide)).2 ⟨?_, ?_⟩⟩, rfl, rfl, rfl,
    rfl, mapM_eq_ok.2 (.cons rfl .nil), rfl, rfl, rfl, rfl, ?_⟩
  · refine List.forall_mem_cons.2 ⟨⟨by rw [h]; decide, _, rfl⟩, List.forall_mem_singleton.2
      ⟨by rw [h']; decide, _, rfl⟩⟩
  · have hlast : lastRows [(first, [[v]]), (second, [[w]])] "ACCUMULATOR" = some [[w]] := by
      simp [lastRows, h', accumulatorName]
    have hnone : lastRows [(first, [[v]]), (second, [[w]])] "OTHER" = none := by
      simp [lastRows, h, h', accumulatorName]
    simp only [spelled, supplied, List.map_cons, List.map_nil, hlast, hnone]
    rfl
  · rfl

/-- The same data in two spellings, visited in two orders. -/
theorem spelled_visited :
    (spelled ("ACCUMULATOR", 1) ("accumulator", 1)).matrices.Perm
      [("ACCUMULATOR", [1, 1]), ("OTHER", [1, 1])] ∧
    (spelled ("ACCUMULATOR", 1) ("accumulator", 1)).data.Perm
      [("accumulator", [[1]]), ("ACCUMULATOR", [[1]])] ∧
    (∀ name, lastRows (spelled ("ACCUMULATOR", 1) ("accumulator", 1)).data name =
      lastRows [("accumulator", [[1]]), ("ACCUMULATOR", [[1]])] name) ∧
    ofDocument { spelled ("ACCUMULATOR", 1) ("accumulator", 1) with
      matrices := [("ACCUMULATOR", [1, 1]), ("OTHER", [1, 1])]
      data := [("accumulator", [[1]]), ("ACCUMULATOR", [[1]])] } = .ok (plainRelu 1) := by
  have hcapitals : Text.canonical "ACCUMULATOR" = accumulatorName := by decide
  have hsmall : Text.canonical "accumulator" = accumulatorName := by decide
  have hlast : ∀ name, lastRows (spelled ("ACCUMULATOR", 1) ("accumulator", 1)).data name =
      lastRows [("accumulator", [[1]]), ("ACCUMULATOR", [[1]])] name := fun name => by
    by_cases hname : accumulatorName = name <;> simp [spelled, lastRows, hcapitals, hsmall, hname]
  have hvisited := ofDocument_visited (spelled ("ACCUMULATOR", 1) ("accumulator", 1))
    (List.Perm.swap ("ACCUMULATOR", [1, 1]) ("OTHER", [1, 1]) [])
    (List.Perm.swap ("accumulator", [[1]]) ("ACCUMULATOR", [[1]]) [])
  exact ⟨.swap _ _ _, .swap _ _ _, hlast,
    (hvisited.1 hlast _).1 (ofDocument_spelled hcapitals hsmall 1 1)⟩

/-- **Different data in two spellings** give a program each, by the order in which they are visited:
nothing refuses them, as two matrices in two spellings are. -/
theorem spelled_depends :
    ((spelled ("ACCUMULATOR", 1) ("accumulator", 2)).data.map Prod.fst).Nodup ∧
    ofDocument (spelled ("ACCUMULATOR", 1) ("accumulator", 2)) = .ok (plainRelu 2) ∧
    ofDocument { spelled ("ACCUMULATOR", 1) ("accumulator", 2) with
      data := (spelled ("ACCUMULATOR", 1) ("accumulator", 2)).data.reverse } = .ok (plainRelu 1) ∧
    plainRelu 2 ≠ plainRelu 1 := by
  have hcapitals : Text.canonical "ACCUMULATOR" = accumulatorName := by decide
  have hsmall : Text.canonical "accumulator" = accumulatorName := by decide
  exact ⟨by decide, ofDocument_spelled hcapitals hsmall 1 2, ofDocument_spelled hsmall hcapitals 2 1,
    by decide⟩

end Documents

end Tessera.Program
