import Movy.Sui.Lcov

/-!
# What a coverage report says

The totals of a record and its counts, against the units and the executed
instructions. Functions are told apart by module and index in the units, and by
file and name in the report.
-/

namespace Movy.Sui.Lcov

open Movy.Store (ObjectID)

/-! ### Totals -/

/- The totals are those of the printed lines. -/
def TotalsConsistent (r : Record) : Prop :=
  r.lf = r.da.length ∧ r.lh = (r.da.filter fun e => decide (e.2 = 1)).length ∧
    r.fnf = r.fnda.length ∧ r.fnh = (r.fnda.filter fun e => decide (e.1 = 1)).length ∧
    r.lh ≤ r.lf ∧ r.fnh ≤ r.fnf

/- The file of an executed function declares some function of its name with a valid
source location. -/
def HitsListed (units : List CompiledUnit) (hits : List BytecodeLocation) : Prop :=
  ∀ h ∈ hits, ∀ source, lastSource units h.functionLocation = some source →
    ∃ loc, Declared units source.file loc source.name

theorem card_eq_length_filter_iff {α : Type} [DecidableEq α] (l : List α) (hl : l.Nodup)
    (s : Finset α) :
    s.card = (l.filter fun a => decide (a ∈ s)).length ↔ ∀ a ∈ s, a ∈ l := by
  have hset : s.filter (· ∈ l) = (l.filter fun a => decide (a ∈ s)).toFinset := by
    ext a
    simp [and_comm]
  rw [← List.toFinset_card_of_nodup (hl.filter _), ← hset, eq_comm, Finset.card_filter_eq_iff]

theorem keys_nodup (m : SortedMap String ℕ) : (m.entries.map Prod.fst).Nodup := by
  refine List.pairwise_map.mpr (m.sorted.imp ?_)
  intro a b hlt heq
  exact absurd (heq ▸ hlt) (lt_irrefl _)

theorem mem_keys (m : SortedMap String ℕ) (n : String) :
    n ∈ m.entries.map Prod.fst ↔ (m.get? n).isSome := by
  simp only [List.mem_map, Prod.exists, exists_and_right, exists_eq_right, SortedMap.mem_entries,
    Option.isSome_iff_exists]

theorem record_counted (hits : Hits) (path : String) (file : FileCoverageMap) :
    ((record hits path file).fnda.filter fun e => decide (e.1 = 1)).length =
        ((file.functions.entries.map Prod.fst).filter
          fun n => decide (n ∈ hits.functionSet path)).length ∧
      ((record hits path file).da.filter fun e => decide (e.2 = 1)).length =
        ((file.lines.sort (· ≤ ·)).filter fun l => decide (l ∈ hits.lineSet path)).length := by
  obtain ⟨hfnda, hda, _, _⟩ := record_counts hits path file
  rw [hfnda, hda]
  simp only [List.filter_map, List.length_map, Function.comp_def]
  constructor <;> simp

/- The totals of the record of a file: the lines always agree. -/
theorem totalsConsistent_record_iff (hits : Hits) (path : String) (file : FileCoverageMap)
    (hlines : ∀ l ∈ hits.lineSet path, l ∈ file.lines) :
    TotalsConsistent (record hits path file) ↔
      ∀ n ∈ hits.functionSet path, (file.functions.get? n).isSome := by
  obtain ⟨hfn, hln⟩ := record_counted hits path file
  obtain ⟨_, hda, hfnh, hlh⟩ := record_counts hits path file
  have hlf : (record hits path file).lf = (record hits path file).da.length := by
    simp [record]
  have hfnf : (record hits path file).fnf = (record hits path file).fnda.length := by
    simp [record]
  have hlhda : (record hits path file).lh =
      ((record hits path file).da.filter fun e => decide (e.2 = 1)).length := by
    rw [hln, hlh]
    refine (card_eq_length_filter_iff _ (Finset.sort_nodup _ _) _).mpr fun l hl => ?_
    exact (Finset.mem_sort _).mpr (hlines l hl)
  have hfnhiff : (record hits path file).fnh =
      ((record hits path file).fnda.filter fun e => decide (e.1 = 1)).length ↔
        ∀ n ∈ hits.functionSet path, (file.functions.get? n).isSome := by
    rw [hfn, hfnh, card_eq_length_filter_iff _ (keys_nodup file.functions)]
    exact forall₂_congr fun n _ => mem_keys file.functions n
  rw [← hfnhiff]
  constructor
  · exact fun h => h.2.2.2.1
  · intro h
    refine ⟨hlf, hlhda, hfnf, h, ?_, ?_⟩
    · rw [hlhda, hlf]
      exact List.length_filter_le _ _
    · rw [h, hfnf]
      exact List.length_filter_le _ _

theorem mem_of_getLast?_filterMap {α β : Type} (l : List α) (f : α → Option β) (b : β)
    (h : (l.filterMap f).getLast? = some b) : ∃ a ∈ l, f a = some b :=
  List.mem_filterMap.mp (List.mem_of_getLast? h)

theorem lastSource_known (units : List CompiledUnit) (loc : FunctionLocation)
    (source : FunctionSource) (h : lastSource units loc = some source) :
    Known units source.file loc source.name := by
  obtain ⟨u, hu, hname⟩ := mem_of_getLast?_filterMap _ _ _ h
  obtain ⟨n, hn, rfl⟩ := Option.map_eq_some_iff.mp hname
  exact ⟨u, hu, rfl, hn⟩

theorem lastLine_mapsTo (units : List CompiledUnit) (loc : BytecodeLocation) (line : SourceLine)
    (h : lastLine units loc = some line) : MapsTo units loc line.file line.line := by
  obtain ⟨u, hu, hline⟩ := mem_of_getLast?_filterMap _ _ _ h
  obtain ⟨l, hl, rfl⟩ := Option.map_eq_some_iff.mp hline
  exact ⟨u, hu, rfl, hl⟩

section

variable (units : List CompiledUnit) (hits : List BytecodeLocation)

theorem mem_functionSet (path n : String) :
    n ∈ (Hits.collect (LineCoverageMap.build units) hits).functionSet path ↔
      ∃ h ∈ hits, lastSource units h.functionLocation = some ⟨path, n⟩ := by
  rw [(Hits.collect_sets _ hits path).1]
  simp only [(describes_build units).source]

theorem mem_lineSet (path : String) (l : ℕ) :
    l ∈ (Hits.collect (LineCoverageMap.build units) hits).lineSet path ↔
      ∃ h ∈ hits, lastLine units h = some ⟨path, l⟩ := by
  rw [(Hits.collect_sets _ hits path).2]
  simp only [(describes_build units).pc]

theorem lineSet_subset (path : String) (file : FileCoverageMap)
    (hfile : (LineCoverageMap.build units).files.get? path = some file) :
    ∀ l ∈ (Hits.collect (LineCoverageMap.build units) hits).lineSet path, l ∈ file.lines := by
  intro l hl
  obtain ⟨h, _, hlast⟩ := (mem_lineSet units hits path l).mp hl
  exact (describes_build units).lines path file hfile h l (lastLine_mapsTo units h _ hlast)

/- The totals of all records are consistent if and only if the hits are listed. -/
theorem totalsConsistent_iff :
    (∀ r ∈ (LineCoverageMap.build units).records hits, TotalsConsistent r) ↔
      HitsListed units hits := by
  have hd := describes_build units
  constructor
  · intro hall h hh source hsource
    obtain ⟨u, hu, hpath, _⟩ := lastSource_known units _ source hsource
    obtain ⟨file, hfile⟩ := Option.isSome_iff_exists.mp ((hd.files source.file).mpr ⟨u, hu, hpath⟩)
    have hr := hall _ ((mem_records _ _ _).mpr ⟨source.file, file, hfile, rfl⟩)
    rw [totalsConsistent_record_iff _ _ _ (lineSet_subset units hits source.file file hfile)] at hr
    exact (hd.functions source.file file hfile source.name).mp
      (hr source.name ((mem_functionSet units hits _ _).mpr ⟨h, hh, hsource⟩))
  · intro hlisted r hr
    obtain ⟨path, file, hfile, rfl⟩ := (mem_records _ _ _).mp hr
    rw [totalsConsistent_record_iff _ _ _ (lineSet_subset units hits path file hfile)]
    intro n hn
    obtain ⟨h, hh, hsource⟩ := (mem_functionSet units hits path n).mp hn
    exact (hd.functions path file hfile n).mpr (hlisted h hh _ hsource)

end

def unitOf (moduleName : String) (definition : Option Loc) : CompiledUnit where
  moduleName := moduleName
  functionDefs := [⟨"f", some 1⟩]
  sourceMap := ⟨some "m.move", fun _ => definition, fun _ _ => some ⟨true, some 7⟩⟩
  sourcePath := "m.move"
  packageId := ObjectID.ofByte 2

/- A function without a valid source location counts as hit, but not as found. -/
theorem unlisted_hit :
    ∃ r, (LineCoverageMap.build [unitOf "m" (some ⟨false, some 5⟩)]).records
        [⟨⟨ObjectID.ofByte 2, "m"⟩, 0, 0⟩] = [r] ∧
      r.fnf = 0 ∧ r.fnh = 1 ∧ ¬TotalsConsistent r := by
  refine ⟨_, rfl, rfl, rfl, fun h => ?_⟩
  exact absurd h.2.2.2.2.2 (by decide)

/-! ### Functions and lines -/

def Executed (hits : List BytecodeLocation) (loc : FunctionLocation) : Prop :=
  ∃ h ∈ hits, h.functionLocation = loc

/- Each function with a source location has an `FNDA` line of its own, a function has
the count 1 there if and only if it was executed, and so has a line. -/
structure FaithfulRecord (units : List CompiledUnit) (hits : List BytecodeLocation) (r : Record) :
    Prop where
  functions : ∃ place : FunctionLocation → String → ℕ,
    (∀ loc n loc' n', Declared units r.sf loc n → Declared units r.sf loc' n' →
      place loc n = place loc' n' → loc = loc' ∧ n = n') ∧
    (∀ loc n, Declared units r.sf loc n → ∃ count, r.fnda[place loc n]? = some (count, n)) ∧
    ∀ loc n, Known units r.sf loc n →
      ((Declared units r.sf loc n ∧ r.fnda[place loc n]? = some (1, n)) ↔ Executed hits loc)
  lines : ∀ l, (l, 1) ∈ r.da ↔ ∃ h ∈ hits, MapsTo units h r.sf l

/- The report has a faithful record for each source file. -/
def Faithful (units : List CompiledUnit) (hits : List BytecodeLocation) (records : List Record) :
    Prop :=
  (∀ u ∈ units, ∃ r ∈ records, r.sf = u.sourcePath) ∧
    ∀ r ∈ records, FaithfulRecord units hits r

/- No two functions of a file have one name, executed functions have a source location,
the units that share an executed function agree on its file and name, and no line of
an executed instruction is replaced by that of a later unit. -/
structure IdentityKept (units : List CompiledUnit) (hits : List BytecodeLocation) : Prop where
  apart : ∀ file n loc loc', Declared units file loc n → Declared units file loc' n → loc = loc'
  listed : ∀ file loc n, Known units file loc n → Executed hits loc → Declared units file loc n
  agreed : ∀ loc, Executed hits loc → ∀ file n file' n', Known units file loc n →
    Known units file' loc n' → file = file' ∧ n = n'
  lines : ∀ h ∈ hits, ∀ file l, MapsTo units h file l →
    ∃ h' ∈ hits, lastLine units h' = some ⟨file, l⟩

theorem Declared.known {units : List CompiledUnit} {file : String} {loc : FunctionLocation}
    {n : String} (h : Declared units file loc n) : Known units file loc n := by
  obtain ⟨u, hu, hpath, hname, _⟩ := h
  exact ⟨u, hu, hpath, hname⟩

theorem Known.lastSource {units : List CompiledUnit} {file : String} {loc : FunctionLocation}
    {n : String} (h : Known units file loc n) :
    ∃ source, Lcov.lastSource units loc = some source := by
  obtain ⟨u, hu, _, hname⟩ := h
  have hmem : (⟨u.sourcePath, n⟩ : FunctionSource) ∈
      units.filterMap fun u => (u.nameOf loc).map fun name => ⟨u.sourcePath, name⟩ :=
    List.mem_filterMap.mpr ⟨u, hu, by simp [hname]⟩
  exact Option.isSome_iff_exists.mp (by
    rw [Lcov.lastSource, List.getLast?_isSome]
    exact List.ne_nil_of_mem hmem)

theorem fnda_getElem? (hits : Hits) (path : String) (file : FileCoverageMap) (i count : ℕ)
    (n : String) :
    (record hits path file).fnda[i]? = some (count, n) ↔
      (file.functions.entries.map Prod.fst)[i]? = some n ∧
        count = if n ∈ hits.functionSet path then 1 else 0 := by
  rw [(record_counts hits path file).1]
  simp only [List.getElem?_map, Option.map_eq_some_iff, Prod.mk.injEq]
  constructor
  · rintro ⟨e, he, rfl, rfl⟩
    exact ⟨⟨e, he, rfl⟩, rfl⟩
  · rintro ⟨⟨e, he, rfl⟩, rfl⟩
    exact ⟨e, he, rfl, rfl⟩

theorem mem_da (hits : Hits) (path : String) (file : FileCoverageMap) (l : ℕ) :
    (l, 1) ∈ (record hits path file).da ↔ l ∈ file.lines ∧ l ∈ hits.lineSet path := by
  rw [(record_counts hits path file).2.1]
  simp

section

variable (units : List CompiledUnit) (hits : List BytecodeLocation)

theorem exists_record (u : CompiledUnit) (hu : u ∈ units) :
    ∃ file, (LineCoverageMap.build units).files.get? u.sourcePath = some file ∧
      record (Hits.collect (LineCoverageMap.build units) hits) u.sourcePath file ∈
        (LineCoverageMap.build units).records hits := by
  obtain ⟨file, hfile⟩ := Option.isSome_iff_exists.mp
    (((describes_build units).files u.sourcePath).mpr ⟨u, hu, rfl⟩)
  exact ⟨file, hfile, (mem_records _ _ _).mpr ⟨u.sourcePath, file, hfile, rfl⟩⟩

variable {units hits}

theorem FaithfulRecord.apart {path : String} {file : FileCoverageMap} {tables : Hits}
    (h : FaithfulRecord units hits (record tables path file)) (n : String)
    (loc loc' : FunctionLocation) (hloc : Declared units path loc n)
    (hloc' : Declared units path loc' n) : loc = loc' := by
  obtain ⟨place, hinj, hplace, _⟩ := h.functions
  obtain ⟨c, hc⟩ := hplace loc n hloc
  obtain ⟨c', hc'⟩ := hplace loc' n hloc'
  have hkey := ((fnda_getElem? tables path file _ c n).mp hc).1
  have hkey' := ((fnda_getElem? tables path file _ c' n).mp hc').1
  have hlt := (List.getElem?_eq_some_iff.mp hkey).1
  have hsame := (List.getElem?_inj hlt (keys_nodup file.functions)).mp (hkey.trans hkey'.symm)
  exact (hinj loc n loc' n hloc hloc' hsame).1

theorem Faithful.record {u : CompiledUnit}
    (h : Faithful units hits ((LineCoverageMap.build units).records hits)) (hu : u ∈ units) :
    ∃ file, (LineCoverageMap.build units).files.get? u.sourcePath = some file ∧
      FaithfulRecord units hits
        (Lcov.record (Hits.collect (LineCoverageMap.build units) hits) u.sourcePath file) := by
  obtain ⟨file, hfile, hr⟩ := exists_record units hits u hu
  exact ⟨file, hfile, h.2 _ hr⟩

theorem Faithful.apart (h : Faithful units hits ((LineCoverageMap.build units).records hits))
    (file n : String) (loc loc' : FunctionLocation) (hloc : Declared units file loc n)
    (hloc' : Declared units file loc' n) : loc = loc' := by
  obtain ⟨u, hu, rfl, _⟩ := hloc.known
  obtain ⟨_, _, hr⟩ := h.record hu
  exact hr.apart n loc loc' hloc hloc'

theorem Faithful.listed (h : Faithful units hits ((LineCoverageMap.build units).records hits))
    (file : String) (loc : FunctionLocation) (n : String) (hloc : Known units file loc n)
    (hexec : Executed hits loc) : Declared units file loc n := by
  obtain ⟨u, hu, rfl, hname⟩ := hloc
  obtain ⟨_, _, hr⟩ := h.record hu
  obtain ⟨place, _, _, hcount⟩ := hr.functions
  exact ((hcount loc n ⟨u, hu, rfl, hname⟩).mpr hexec).1

theorem Faithful.lastSource (h : Faithful units hits ((LineCoverageMap.build units).records hits))
    (file : String) (loc : FunctionLocation) (n : String) (hloc : Known units file loc n)
    (hexec : Executed hits loc) : Lcov.lastSource units loc = some ⟨file, n⟩ := by
  obtain ⟨u, hu, rfl, hname⟩ := hloc
  obtain ⟨file, hfile, hr⟩ := h.record hu
  obtain ⟨place, _, _, hcount⟩ := hr.functions
  obtain ⟨hdecl, hfnda⟩ := (hcount loc n ⟨u, hu, rfl, hname⟩).mpr hexec
  have hmem : n ∈ (Hits.collect (LineCoverageMap.build units) hits).functionSet u.sourcePath := by
    by_contra hnot
    have hone := ((fnda_getElem? _ _ _ _ _ _).mp hfnda).2
    rw [if_neg hnot] at hone
    exact absurd hone (by decide)
  obtain ⟨hit, hhit, hlast⟩ := (mem_functionSet units hits _ n).mp hmem
  have hhitdecl := h.listed u.sourcePath hit.functionLocation n (lastSource_known units _ _ hlast)
    ⟨hit, hhit, rfl⟩
  rw [← h.apart u.sourcePath n _ _ hhitdecl hdecl]
  exact hlast

theorem Faithful.identityKept
    (h : Faithful units hits ((LineCoverageMap.build units).records hits)) :
    IdentityKept units hits := by
  refine ⟨h.apart, h.listed, ?_, ?_⟩
  · intro loc hexec file n file' n' hloc hloc'
    have hsame := (h.lastSource file loc n hloc hexec).symm.trans
      (h.lastSource file' loc n' hloc' hexec)
    simpa using hsame
  · intro hit hhit file l hmaps
    obtain ⟨u, hu, rfl, hline⟩ := hmaps
    obtain ⟨file, hfile, hr⟩ := h.record hu
    have hda := (hr.lines l).mpr ⟨hit, hhit, u, hu, rfl, hline⟩
    exact (mem_lineSet units hits _ l).mp ((mem_da _ _ _ l).mp hda).2

theorem IdentityKept.faithfulRecord (h : IdentityKept units hits) (path : String)
    (file : FileCoverageMap)
    (hfile : (LineCoverageMap.build units).files.get? path = some file) :
    FaithfulRecord units hits
      (Lcov.record (Hits.collect (LineCoverageMap.build units) hits) path file) := by
  have hd := describes_build units
  have hkey : ∀ loc n, Declared units path loc n → n ∈ file.functions.entries.map Prod.fst := by
    intro loc n hloc
    exact (mem_keys _ n).mpr ((hd.functions path file hfile n).mpr ⟨loc, hloc⟩)
  have hplace : ∀ loc n, Declared units path loc n →
      (file.functions.entries.map Prod.fst)[(file.functions.entries.map Prod.fst).idxOf n]? =
        some n := fun loc n hloc => List.getElem?_idxOf (hkey loc n hloc)
  -- an executed function that is filed under the name is the one that is declared
  have hmem : ∀ loc n, Declared units path loc n →
      (n ∈ (Hits.collect (LineCoverageMap.build units) hits).functionSet path ↔
        Executed hits loc) := by
    intro loc n hloc
    rw [mem_functionSet]
    constructor
    · rintro ⟨hit, hhit, hlast⟩
      have hdecl := h.listed path hit.functionLocation n (lastSource_known units _ _ hlast)
        ⟨hit, hhit, rfl⟩
      exact ⟨hit, hhit, h.apart path n _ _ hdecl hloc⟩
    · rintro ⟨hit, hhit, rfl⟩
      obtain ⟨source, hlast⟩ := hloc.known.lastSource
      have hagree := h.agreed hit.functionLocation ⟨hit, hhit, rfl⟩ path n source.file source.name
        hloc.known (lastSource_known units _ _ hlast)
      refine ⟨hit, hhit, hlast.trans ?_⟩
      rw [hagree.1, hagree.2]
  refine ⟨⟨fun _ n => (file.functions.entries.map Prod.fst).idxOf n, ?_, ?_, ?_⟩, fun l => ?_⟩
  · intro loc n loc' n' hloc hloc' heq
    have hn : n = n' := (List.idxOf_inj (hkey loc n hloc)).mp heq
    exact ⟨h.apart path n loc loc' hloc (hn ▸ hloc'), hn⟩
  · exact fun loc n hloc => ⟨_, (fnda_getElem? _ _ _ _ _ _).mpr ⟨hplace loc n hloc, rfl⟩⟩
  · intro loc n hloc
    constructor
    · rintro ⟨hdecl, hfnda⟩
      have hone := ((fnda_getElem? _ _ _ _ _ _).mp hfnda).2
      refine (hmem loc n hdecl).mp ?_
      by_contra hnot
      rw [if_neg hnot] at hone
      exact absurd hone (by decide)
    · intro hexec
      have hdecl := h.listed path loc n hloc hexec
      refine ⟨hdecl, (fnda_getElem? _ _ _ _ _ _).mpr ⟨hplace loc n hdecl, ?_⟩⟩
      rw [if_pos ((hmem loc n hdecl).mpr hexec)]
  · rw [mem_da, mem_lineSet]
    constructor
    · rintro ⟨_, hit, hhit, hlast⟩
      exact ⟨hit, hhit, lastLine_mapsTo units hit _ hlast⟩
    · rintro ⟨hit, hhit, hmaps⟩
      exact ⟨hd.lines path file hfile hit l hmaps, h.lines hit hhit path l hmaps⟩

end

/- A report is faithful if and only if the identities of functions and lines are kept. -/
theorem faithful_iff (units : List CompiledUnit) (hits : List BytecodeLocation) :
    Faithful units hits ((LineCoverageMap.build units).records hits) ↔
      IdentityKept units hits := by
  refine ⟨Faithful.identityKept, fun h => ⟨fun u hu => ?_, fun r hr => ?_⟩⟩
  · obtain ⟨file, _, hr⟩ := exists_record units hits u hu
    exact ⟨_, hr, rfl⟩
  · obtain ⟨path, file, hfile, rfl⟩ := (mem_records _ _ _).mp hr
    exact h.faithfulRecord path file hfile

/- Two modules of one file have a function `f`, and only the first one is executed. -/
theorem same_name_merged :
    (∃ r, (LineCoverageMap.build [unitOf "m" (some ⟨true, some 5⟩),
        unitOf "n" (some ⟨true, some 6⟩)]).records [⟨⟨ObjectID.ofByte 2, "m"⟩, 0, 0⟩] = [r] ∧
      r.fnda = [(1, "f")]) ∧
    ¬Faithful [unitOf "m" (some ⟨true, some 5⟩), unitOf "n" (some ⟨true, some 6⟩)]
      [⟨⟨ObjectID.ofByte 2, "m"⟩, 0, 0⟩]
      ((LineCoverageMap.build [unitOf "m" (some ⟨true, some 5⟩),
        unitOf "n" (some ⟨true, some 6⟩)]).records [⟨⟨ObjectID.ofByte 2, "m"⟩, 0, 0⟩]) := by
  refine ⟨⟨_, rfl, rfl⟩, fun h => ?_⟩
  have hsame := h.apart "m.move" "f" ⟨⟨ObjectID.ofByte 2, "m"⟩, 0⟩ ⟨⟨ObjectID.ofByte 2, "n"⟩, 0⟩
    ⟨_, List.mem_cons_self, rfl, rfl, rfl⟩
    ⟨_, List.mem_cons_of_mem _ List.mem_cons_self, rfl, rfl, rfl⟩
  exact absurd hsame (by decide)

end Movy.Sui.Lcov
