import Mathlib.Data.Finset.Insert
import Movy.Lib.MergeOrder
import Movy.Lib.Pointwise
import Movy.Store.Object

/-!
# Local dependency paths (`movy-sui/src/compile.rs`)

`resolve_local_dependency_paths` loads the package graph of every root folder and
lists the canonical folders of the packages that are not system packages, each once.
The packages are deployed in this order.
-/

namespace Movy.Sui

open Movy.Store

structure Package (Path : Type) where
  path : Path
  published : Option ObjectID

/- `ordered` is the result so far, `seen` the set of its members. -/
structure Resolved (Path : Type) where
  ordered : List Path
  seen : Finset Path

section

variable {Path ε : Type} [DecidableEq Path]
  (loadRootPackage : Path → Bool → Except ε (List (Package Path)))
  (canonicalize : Path → Except ε Path) (isSystemPackage : ObjectID → Bool)

def Package.isSystem (package : Package Path) : Bool :=
  (package.published.map isSystemPackage).getD false

def Resolved.push (r : Resolved Path) (path : Path) : Resolved Path :=
  if path ∈ r.seen then r else ⟨r.ordered ++ [path], insert path r.seen⟩

def resolvePackage (r : Resolved Path) (package : Package Path) : Except ε (Resolved Path) :=
  if package.isSystem isSystemPackage then .ok r
  else do
    let path ← canonicalize package.path
    .ok (r.push path)

def resolveRoot (testMode : Bool) (r : Resolved Path) (folder : Path) :
    Except ε (Resolved Path) := do
  let packages ← loadRootPackage folder testMode
  packages.reverse.foldlM (resolvePackage canonicalize isSystemPackage) r

def resolveLocalDependencyPaths (folders : List Path) (testMode : Bool) : Except ε (List Path) := do
  let r ← folders.foldlM (resolveRoot loadRootPackage canonicalize isSystemPackage testMode) ⟨[], ∅⟩
  .ok r.ordered

/-! ### The loops merge one list per root -/

/- The canonical folders of the local packages of a graph, dependencies first. -/
def localPaths (packages : List (Package Path)) : Except ε (List Path) :=
  (packages.reverse.filter fun p => !p.isSystem isSystemPackage).mapM fun p => canonicalize p.path

def rootPaths (testMode : Bool) (folder : Path) : Except ε (List Path) := do
  let packages ← loadRootPackage folder testMode
  localPaths canonicalize isSystemPackage packages

def Resolved.Matches (r : Resolved Path) : Prop := ∀ path, path ∈ r.seen ↔ path ∈ r.ordered

theorem Resolved.Matches.push {r : Resolved Path} (h : r.Matches) (path : Path) :
    (r.push path).Matches ∧ (r.push path).ordered = pushNew r.ordered path := by
  unfold Resolved.push pushNew
  by_cases hseen : path ∈ r.seen
  · rw [if_pos hseen, if_pos ((h path).mp hseen)]
    exact ⟨h, rfl⟩
  · rw [if_neg hseen, if_neg fun hmem => hseen ((h path).mpr hmem)]
    refine ⟨fun other => ?_, rfl⟩
    rw [Finset.mem_insert, List.mem_append, List.mem_singleton, h other]
    exact or_comm

theorem Resolved.Matches.foldl_push {r : Resolved Path} (h : r.Matches) (paths : List Path) :
    (paths.foldl Resolved.push r).Matches ∧
      (paths.foldl Resolved.push r).ordered = paths.foldl pushNew r.ordered := by
  induction paths generalizing r with
  | nil => exact ⟨h, rfl⟩
  | cons path paths ih =>
    obtain ⟨hmatches, hordered⟩ := h.push path
    obtain ⟨hmatches', hordered'⟩ := ih hmatches
    refine ⟨hmatches', ?_⟩
    rw [List.foldl_cons, List.foldl_cons, hordered', hordered]

theorem foldlM_resolvePackage (packages : List (Package Path)) (r : Resolved Path) :
    packages.foldlM (resolvePackage canonicalize isSystemPackage) r =
      ((packages.filter fun p => !p.isSystem isSystemPackage).mapM
        fun p => canonicalize p.path).map fun paths => paths.foldl Resolved.push r := by
  induction packages generalizing r with
  | nil => rfl
  | cons p packages ih =>
    rw [List.foldlM_cons, List.filter_cons]
    cases hsystem : p.isSystem isSystemPackage with
    | true =>
      simp only [resolvePackage, hsystem, if_true, Bool.not_true, Bool.false_eq_true, if_false]
      exact ih r
    | false =>
      simp only [resolvePackage, hsystem, Bool.not_false, if_true, Bool.false_eq_true, if_false,
        List.mapM_cons]
      cases canonicalize p.path with
      | error e => rfl
      | ok path =>
        refine (ih (r.push path)).trans ?_
        cases (packages.filter fun p => !p.isSystem isSystemPackage).mapM
          fun p => canonicalize p.path <;> rfl

theorem resolveRoot_eq (testMode : Bool) (folder : Path) (r : Resolved Path) :
    resolveRoot loadRootPackage canonicalize isSystemPackage testMode r folder =
      (rootPaths loadRootPackage canonicalize isSystemPackage testMode folder).map
        fun paths => paths.foldl Resolved.push r := by
  unfold resolveRoot rootPaths
  cases loadRootPackage folder testMode with
  | error e => rfl
  | ok packages => exact foldlM_resolvePackage canonicalize isSystemPackage packages.reverse r

theorem foldlM_resolveRoot (testMode : Bool) (folders : List Path) (r : Resolved Path) :
    folders.foldlM (resolveRoot loadRootPackage canonicalize isSystemPackage testMode) r =
      (folders.mapM (rootPaths loadRootPackage canonicalize isSystemPackage testMode)).map
        fun lists => lists.flatten.foldl Resolved.push r := by
  induction folders generalizing r with
  | nil => rfl
  | cons folder folders ih =>
    rw [List.foldlM_cons, List.mapM_cons, resolveRoot_eq]
    cases rootPaths loadRootPackage canonicalize isSystemPackage testMode folder with
    | error e => rfl
    | ok paths =>
      refine (ih (paths.foldl Resolved.push r)).trans ?_
      cases folders.mapM (rootPaths loadRootPackage canonicalize isSystemPackage testMode) with
      | error e => rfl
      | ok lists =>
        simp only [Except.map, bind, Except.bind, pure, Except.pure, List.flatten_cons,
          List.foldl_append]

/- The result is the merge of the lists of the roots, and errors are those of the first
folder that fails. -/
theorem resolveLocalDependencyPaths_eq (folders : List Path) (testMode : Bool) :
    resolveLocalDependencyPaths loadRootPackage canonicalize isSystemPackage folders testMode =
      (folders.mapM (rootPaths loadRootPackage canonicalize isSystemPackage testMode)).map
        fun lists => firstOccurrences lists.flatten := by
  have hmatches : Resolved.Matches (⟨[], ∅⟩ : Resolved Path) := by
    intro path
    simp
  unfold resolveLocalDependencyPaths
  rw [foldlM_resolveRoot]
  cases folders.mapM (rootPaths loadRootPackage canonicalize isSystemPackage testMode) with
  | error e => rfl
  | ok lists => exact congrArg Except.ok (hmatches.foldl_push lists.flatten).2

end

/-! ### Dependencies

A package is known by its canonical folder: `dependsOn` relates the folder of a package to
the folders of its dependencies. -/

section

variable {Path ε : Type} (canonicalize : Path → Except ε Path) (dependsOn : Path → Path → Prop)

def LiesIn (package : Package Path) (folder : Path) : Prop :=
  canonicalize package.path = .ok folder

/- Whatever the folder of a package depends on comes before the package. -/
def DependenciesFirst (packages : List (Package Path)) : Prop :=
  ∀ before package after, packages = before ++ package :: after → ∀ folder dependency,
    LiesIn canonicalize package folder → dependsOn folder dependency →
    ∃ q ∈ before, LiesIn canonicalize q dependency

/- What the loader is relied on for: the graph of a root has the root, and in reverse it has
the dependencies of every package, before the package. -/
structure SortedRoot (root : Path) (packages : List (Package Path)) : Prop where
  lists_root : ∀ folder, canonicalize root = .ok folder →
    ∃ p ∈ packages, LiesIn canonicalize p folder
  dependencies_first : DependenciesFirst canonicalize dependsOn packages.reverse

variable {canonicalize dependsOn}

theorem dependenciesFirst_nil : DependenciesFirst canonicalize dependsOn [] := by
  intro before package after heq
  simp at heq

theorem DependenciesFirst.concat {packages : List (Package Path)}
    (h : DependenciesFirst canonicalize dependsOn packages) (package : Package Path)
    (hlast : ∀ folder dependency, LiesIn canonicalize package folder →
      dependsOn folder dependency → ∃ q ∈ packages, LiesIn canonicalize q dependency) :
    DependenciesFirst canonicalize dependsOn (packages ++ [package]) := by
  intro before p after heq folder dependency hlies hdepends
  rcases List.eq_nil_or_concat after with rfl | ⟨after, last, rfl⟩
  · obtain ⟨rfl, hp⟩ := List.append_inj' heq rfl
    obtain rfl := List.singleton_inj.mp hp
    exact hlast folder dependency hlies hdepends
  · have hsnoc : packages ++ [package] = (before ++ p :: after) ++ [last] := by simpa using heq
    obtain ⟨rfl, _⟩ := List.append_inj' hsnoc rfl
    exact h before p after rfl folder dependency hlies hdepends

/- By induction on the path of dependencies: each is found in front of the one before. -/
theorem DependenciesFirst.trans {packages : List (Package Path)}
    (h : DependenciesFirst canonicalize dependsOn packages) :
    DependenciesFirst canonicalize (Relation.TransGen dependsOn) packages := by
  intro before package after heq folder dependency hfolder hdepends
  induction hdepends using Relation.TransGen.head_induction_on
    generalizing before package after with
  | single hdirect => exact h before package after heq _ dependency hfolder hdirect
  | head hdirect _ ih =>
    obtain ⟨q, hq, hlies⟩ := h before package after heq _ _ hfolder hdirect
    obtain ⟨left, right, rfl⟩ := List.append_of_mem hq
    obtain ⟨d, hd, hdlies⟩ := ih left q (right ++ package :: after) (by simpa using heq) hlies
    exact ⟨d, List.mem_append_left _ hd, hdlies⟩

theorem SortedRoot.reaches {root folder dependency : Path} {packages : List (Package Path)}
    (h : SortedRoot canonicalize dependsOn root packages) (hroot : canonicalize root = .ok folder)
    (hreach : Relation.ReflTransGen dependsOn folder dependency) :
    ∃ p ∈ packages, LiesIn canonicalize p dependency := by
  obtain ⟨p, hp, hfolder⟩ := h.lists_root folder hroot
  rcases Relation.reflTransGen_iff_eq_or_transGen.mp hreach with rfl | htrans
  · exact ⟨p, hp, hfolder⟩
  · obtain ⟨before, after, heq⟩ := List.append_of_mem (List.mem_reverse.mpr hp)
    obtain ⟨q, hq, hlies⟩ := h.dependencies_first.trans before p after heq folder dependency
      hfolder htrans
    refine ⟨q, List.mem_reverse.mp ?_, hlies⟩
    rw [heq]
    exact List.mem_append_left _ hq

def InFolders (canonicalize : Path → Except ε Path) (packages : List (Package Path))
    (folders : List Path) : Prop :=
  List.Forall₂ (LiesIn canonicalize) packages folders

theorem InFolders.mem_iff {packages : List (Package Path)} {folders : List Path}
    (h : InFolders canonicalize packages folders) (folder : Path) :
    folder ∈ folders ↔ ∃ p ∈ packages, LiesIn canonicalize p folder := by
  induction h with
  | nil => simp
  | @cons p f packages folders hp _ ih =>
    have hhead : folder = f ↔ LiesIn canonicalize p folder := by
      rw [LiesIn, show canonicalize p.path = .ok f from hp, Except.ok.injEq]
      exact eq_comm
    simp only [List.mem_cons, ih, hhead, exists_eq_or_imp]

variable {isSystemPackage : ObjectID → Bool}

theorem localPaths_folders {packages : List (Package Path)} {paths : List Path}
    (h : localPaths canonicalize isSystemPackage packages = .ok paths) :
    InFolders canonicalize (packages.reverse.filter fun p => !p.isSystem isSystemPackage) paths :=
  (mapM_eq_ok _ _ _).mp h

theorem mem_localPaths {packages : List (Package Path)} {paths : List Path}
    (h : localPaths canonicalize isSystemPackage packages = .ok paths) (folder : Path) :
    folder ∈ paths ↔ ∃ p ∈ packages, p.isSystem isSystemPackage = false ∧
      LiesIn canonicalize p folder := by
  rw [(localPaths_folders h).mem_iff]
  simp only [List.mem_filter, List.mem_reverse, Bool.not_eq_true', and_assoc]

/- Leaving out the system packages keeps the order of the others, and dependencies count
through system packages too. By induction on the packages that are left. -/
theorem DependenciesFirst.depsFirst {dep : Path → Path → Prop} {packages : List (Package Path)}
    {paths : List Path} (h : DependenciesFirst canonicalize dependsOn packages)
    (hpaths : InFolders canonicalize (packages.filter fun p => !p.isSystem isSystemPackage) paths)
    (hdep : ∀ folder dependency, dep folder dependency → dependsOn folder dependency ∧
      ∀ p ∈ packages, LiesIn canonicalize p dependency → p.isSystem isSystemPackage = false) :
    DepsFirst dep [] paths := by
  have hrest : ∀ rest before, packages = before ++ rest → ∀ seen folders,
      InFolders canonicalize (before.filter fun p => !p.isSystem isSystemPackage) seen →
      InFolders canonicalize (rest.filter fun p => !p.isSystem isSystemPackage) folders →
      DepsFirst dep seen folders := by
    intro rest
    induction rest with
    | nil =>
      intro before _ seen folders _ hfolders
      cases hfolders
      trivial
    | cons p rest ih =>
      intro before heq seen folders hseen hfolders
      have heq' : packages = (before ++ [p]) ++ rest := by simpa using heq
      cases hsystem : p.isSystem isSystemPackage with
      | true =>
        rw [List.filter_cons_of_neg (by simp [hsystem])] at hfolders
        refine ih (before ++ [p]) heq' seen folders ?_ hfolders
        rw [List.filter_append, List.filter_cons_of_neg (by simp [hsystem]), List.filter_nil,
          List.append_nil]
        exact hseen
      | false =>
        rw [List.filter_cons_of_pos (by simp [hsystem])] at hfolders
        cases hfolders with
        | @cons _ folder _ folders hp hfolders =>
          refine ⟨?_, ih (before ++ [p]) heq' (seen ++ [folder]) folders ?_ hfolders⟩
          · intro dependency hdepends
            obtain ⟨hdirect, hlocal⟩ := hdep folder dependency hdepends
            obtain ⟨q, hq, hlies⟩ := h before p rest heq folder dependency hp hdirect
            have hin : q ∈ packages := heq ▸ List.mem_append_left _ hq
            rw [hseen.mem_iff]
            exact ⟨q, List.mem_filter.mpr ⟨hq, by simp [hlocal q hin hlies]⟩, hlies⟩
          · rw [List.filter_append, List.filter_cons_of_pos (by simp [hsystem]), List.filter_nil]
            exact List.rel_append hseen (.cons hp .nil)
  exact hrest packages [] rfl [] paths .nil hpaths

theorem rootPaths_ok (loadRootPackage : Path → Bool → Except ε (List (Package Path)))
    (testMode : Bool) (root : Path) (paths : List Path) :
    rootPaths loadRootPackage canonicalize isSystemPackage testMode root = .ok paths ↔
      ∃ packages, loadRootPackage root testMode = .ok packages ∧
        localPaths canonicalize isSystemPackage packages = .ok paths := by
  unfold rootPaths
  cases loadRootPackage root testMode with
  | error e => simp [bind, Except.bind]
  | ok packages => simp [bind, Except.bind]

section

variable (loadRootPackage : Path → Bool → Except ε (List (Package Path)))
  (canonicalize : Path → Except ε Path) (isSystemPackage : ObjectID → Bool)
  (dependsOn : Path → Path → Prop) (folders : List Path) (testMode : Bool)

def Loaded (package : Package Path) : Prop :=
  ∃ root ∈ folders, ∃ packages, loadRootPackage root testMode = .ok packages ∧ package ∈ packages

def NonSystem (folder : Path) : Prop :=
  ∀ package, Loaded loadRootPackage folders testMode package →
    LiesIn canonicalize package folder → package.isSystem isSystemPackage = false

/- The folders can be deployed in the order of the list. -/
structure Deployable (ordered : List Path) : Prop where
  nodup : ordered.Nodup
  listed : ∀ folder ∈ ordered, ∃ package, Loaded loadRootPackage folders testMode package ∧
    package.isSystem isSystemPackage = false ∧ LiesIn canonicalize package folder
  covers : ∀ root ∈ folders, ∀ folder dependency, canonicalize root = .ok folder →
    Relation.ReflTransGen dependsOn folder dependency →
    NonSystem loadRootPackage canonicalize isSystemPackage folders testMode dependency →
    dependency ∈ ordered
  dependencies_first : ∀ before folder after, ordered = before ++ folder :: after →
    ∀ dependency, Relation.TransGen dependsOn folder dependency →
    NonSystem loadRootPackage canonicalize isSystemPackage folders testMode dependency →
    dependency ∈ before

end

section

variable [DecidableEq Path] {loadRootPackage : Path → Bool → Except ε (List (Package Path))}
  {folders ordered : List Path} {testMode : Bool}

theorem resolve_ok_lists
    (h : resolveLocalDependencyPaths loadRootPackage canonicalize isSystemPackage folders testMode =
      .ok ordered) :
    ∃ lists, ordered = firstOccurrences lists.flatten ∧ List.Forall₂ (fun root paths =>
      rootPaths loadRootPackage canonicalize isSystemPackage testMode root = .ok paths)
        folders lists := by
  rw [resolveLocalDependencyPaths_eq] at h
  cases hlists : folders.mapM (rootPaths loadRootPackage canonicalize isSystemPackage testMode) with
  | error e =>
    rw [hlists] at h
    cases h
  | ok lists =>
    rw [hlists] at h
    exact ⟨lists, (Except.ok.inj h).symm, (mapM_eq_ok _ _ _).mp hlists⟩

/- There is a result if the graphs load and the folders of their local packages resolve. -/
theorem resolve_isOk_iff :
    (∃ ordered, resolveLocalDependencyPaths loadRootPackage canonicalize isSystemPackage folders
      testMode = .ok ordered) ↔
    ∀ root ∈ folders, ∃ packages, loadRootPackage root testMode = .ok packages ∧
      ∀ p ∈ packages, p.isSystem isSystemPackage = false →
        ∃ folder, LiesIn canonicalize p folder := by
  have hlocal : ∀ packages, (∃ paths, localPaths canonicalize isSystemPackage packages =
      .ok paths) ↔ ∀ p ∈ packages, p.isSystem isSystemPackage = false →
        ∃ folder, LiesIn canonicalize p folder := by
    intro packages
    unfold localPaths
    rw [exists_mapM_ok]
    simp only [List.mem_filter, List.mem_reverse, Bool.not_eq_true', and_imp, LiesIn]
  have hroot : ∀ root, (∃ paths, rootPaths loadRootPackage canonicalize isSystemPackage testMode
      root = .ok paths) ↔ ∃ packages, loadRootPackage root testMode = .ok packages ∧
      ∀ p ∈ packages, p.isSystem isSystemPackage = false →
        ∃ folder, LiesIn canonicalize p folder := by
    intro root
    simp only [rootPaths_ok, ← hlocal]
    constructor
    · intro h
      obtain ⟨paths, packages, hload, hpaths⟩ := h
      exact ⟨packages, hload, paths, hpaths⟩
    · intro h
      obtain ⟨packages, hload, paths, hpaths⟩ := h
      exact ⟨paths, packages, hload, hpaths⟩
  simp only [← hroot, ← exists_mapM_ok, resolveLocalDependencyPaths_eq]
  constructor
  · intro h
    obtain ⟨ordered, hordered⟩ := h
    cases hlists : folders.mapM (rootPaths loadRootPackage canonicalize isSystemPackage
      testMode) with
    | error e =>
      rw [hlists] at hordered
      cases hordered
    | ok lists => exact ⟨lists, rfl⟩
  · intro h
    obtain ⟨lists, hlists⟩ := h
    rw [hlists]
    exact ⟨_, rfl⟩

section

variable (hroots : ∀ root ∈ folders, ∀ packages, loadRootPackage root testMode = .ok packages →
  SortedRoot canonicalize dependsOn root packages)

include hroots

theorem depsFirst_resolved {lists : List (List Path)}
    (hlists : List.Forall₂ (fun root paths =>
      rootPaths loadRootPackage canonicalize isSystemPackage testMode root = .ok paths)
        folders lists) :
    DepsFirst (fun folder dependency => Relation.TransGen dependsOn folder dependency ∧
      NonSystem loadRootPackage canonicalize isSystemPackage folders testMode dependency) []
      (firstOccurrences lists.flatten) := by
  apply depsFirst_firstOccurrences
  intro paths hpaths
  obtain ⟨root, hroot, hrun⟩ := exists_of_forall₂ hlists.flip paths hpaths
  obtain ⟨packages, hload, hlocal⟩ := (rootPaths_ok loadRootPackage testMode root paths).mp hrun
  refine (hroots root hroot packages hload).dependencies_first.trans.depsFirst
    (localPaths_folders hlocal) ?_
  intro folder dependency hdep
  refine ⟨hdep.1, fun p hp hlies => ?_⟩
  exact hdep.2 p ⟨root, hroot, packages, hload, List.mem_reverse.mp hp⟩ hlies

theorem deployable_resolved
    (h : resolveLocalDependencyPaths loadRootPackage canonicalize isSystemPackage folders testMode =
      .ok ordered) :
    Deployable loadRootPackage canonicalize isSystemPackage dependsOn folders testMode ordered := by
  obtain ⟨lists, rfl, hlists⟩ := resolve_ok_lists h
  have hmem : ∀ folder, folder ∈ firstOccurrences lists.flatten ↔
      ∃ paths ∈ lists, folder ∈ paths := by
    intro folder
    rw [mem_firstOccurrences, List.mem_flatten]
  refine ⟨firstOccurrences_nodup _, ?_, ?_, ?_⟩
  · intro folder hfolder
    obtain ⟨paths, hpaths, hin⟩ := (hmem folder).mp hfolder
    obtain ⟨root, hroot, hrun⟩ := exists_of_forall₂ hlists.flip paths hpaths
    obtain ⟨packages, hload, hlocal⟩ := (rootPaths_ok loadRootPackage testMode root paths).mp hrun
    obtain ⟨p, hp, hsystem, hlies⟩ := (mem_localPaths hlocal folder).mp hin
    exact ⟨p, ⟨root, hroot, packages, hload, hp⟩, hsystem, hlies⟩
  · intro root hroot folder dependency hcanonical hreach hnonSystem
    obtain ⟨paths, hpaths, hrun⟩ := exists_of_forall₂ hlists root hroot
    obtain ⟨packages, hload, hlocal⟩ := (rootPaths_ok loadRootPackage testMode root paths).mp hrun
    obtain ⟨p, hp, hlies⟩ := (hroots root hroot packages hload).reaches hcanonical hreach
    have hsystem := hnonSystem p ⟨root, hroot, packages, hload, hp⟩ hlies
    exact (hmem dependency).mpr ⟨paths, hpaths,
      (mem_localPaths hlocal dependency).mpr ⟨p, hp, hsystem, hlies⟩⟩
  · intro before folder after heq dependency htrans hlocal
    exact (depsFirst_resolved hroots hlists).split heq dependency ⟨htrans, hlocal⟩

end

end

end

/- If the loader lists every root with its dependencies, each before its dependents, then the
result can be deployed in its order: no folder comes twice, all local packages that a root
reaches are there, and each comes after its dependencies. -/
theorem resolveLocalDependencyPaths_deployable {Path ε : Type} [DecidableEq Path]
    (loadRootPackage : Path → Bool → Except ε (List (Package Path)))
    (canonicalize : Path → Except ε Path) (isSystemPackage : ObjectID → Bool)
    (dependsOn : Path → Path → Prop) (folders : List Path) (testMode : Bool)
    (hroots : ∀ root ∈ folders, ∀ packages, loadRootPackage root testMode = .ok packages →
      SortedRoot canonicalize dependsOn root packages) :
    ((∃ ordered, resolveLocalDependencyPaths loadRootPackage canonicalize isSystemPackage folders
        testMode = .ok ordered) ↔
      ∀ root ∈ folders, ∃ packages, loadRootPackage root testMode = .ok packages ∧
        ∀ p ∈ packages, p.isSystem isSystemPackage = false →
          ∃ folder, LiesIn canonicalize p folder) ∧
    ∀ ordered, resolveLocalDependencyPaths loadRootPackage canonicalize isSystemPackage folders
        testMode = .ok ordered →
      Deployable loadRootPackage canonicalize isSystemPackage dependsOn folders testMode ordered :=
  ⟨resolve_isOk_iff, fun _ h => deployable_resolved hroots h⟩

/- Two packages that use a shared one, which uses the framework. Paths are lists of names, and
each of the two has its own path to the shared package. -/
def workspaceFolder (path : List String) : List String :=
  path.foldl (fun folder name => if name = ".." then folder.dropLast else folder ++ [name]) ["ws"]

def workspaceCanonicalize (path : List String) : Except Unit (List String) :=
  .ok (workspaceFolder path)

def workspaceRoot (name : String) : List (Package (List String)) :=
  [⟨[name], none⟩, ⟨[name, "..", "shared"], none⟩, ⟨["framework"], some (ObjectID.ofByte 2)⟩]

def workspaceLoad (root : List String) (_ : Bool) : Except Unit (List (Package (List String))) :=
  match root with
  | [name] => .ok (workspaceRoot name)
  | _ => .error ()

def workspaceDepends (folder dependency : List String) : Prop :=
  folder = ["ws", "shared"] ∧ dependency = ["ws", "framework"] ∨
    (folder = ["ws", "left"] ∨ folder = ["ws", "right"]) ∧ dependency = ["ws", "shared"]

def isFramework (id : ObjectID) : Bool := id = ObjectID.ofByte 2

theorem workspace_sorted (name : String) (hname : name = "left" ∨ name = "right") :
    SortedRoot workspaceCanonicalize workspaceDepends [name] (workspaceRoot name) where
  lists_root := by
    intro folder hfolder
    exact ⟨_, List.mem_cons_self .., hfolder⟩
  dependencies_first := by
    have hroot : workspaceFolder [name] ≠ ["ws", "shared"] := by
      rcases hname with rfl | rfl <;> decide
    have hshared : workspaceFolder [name, "..", "shared"] = ["ws", "shared"] := by
      rcases hname with rfl | rfl <;> rfl
    refine ((dependenciesFirst_nil.concat ⟨["framework"], some (ObjectID.ofByte 2)⟩ ?_).concat
      ⟨[name, "..", "shared"], none⟩ ?_).concat ⟨[name], none⟩ ?_
    · intro folder dependency hlies hdepends
      obtain rfl := Except.ok.inj hlies
      simp [workspaceDepends, workspaceFolder] at hdepends
    · intro folder dependency hlies hdepends
      obtain rfl := Except.ok.inj hlies
      rw [hshared] at hdepends
      rcases hdepends with ⟨_, rfl⟩ | ⟨hleaf, _⟩
      · exact ⟨_, List.mem_cons_self .., rfl⟩
      · simp at hleaf
    · intro folder dependency hlies hdepends
      obtain rfl := Except.ok.inj hlies
      rcases hdepends with ⟨hfolder, _⟩ | ⟨_, rfl⟩
      · exact absurd hfolder hroot
      · exact ⟨⟨[name, "..", "shared"], none⟩, by simp, congrArg Except.ok hshared⟩

/- The shared package comes once, in front of both that use it. -/
theorem resolveLocalDependencyPaths_deployable_workspace :
    Deployable workspaceLoad workspaceCanonicalize isFramework workspaceDepends
      [["left"], ["right"]] true [["ws", "shared"], ["ws", "left"], ["ws", "right"]] :=
  (resolveLocalDependencyPaths_deployable workspaceLoad workspaceCanonicalize isFramework
    workspaceDepends [["left"], ["right"]] true (by
      intro root hroot packages hload
      rcases List.mem_pair.mp hroot with rfl | rfl
      · obtain rfl := Except.ok.inj hload
        exact workspace_sorted "left" (.inl rfl)
      · obtain rfl := Except.ok.inj hload
        exact workspace_sorted "right" (.inr rfl))).2 _ rfl

end Movy.Sui
