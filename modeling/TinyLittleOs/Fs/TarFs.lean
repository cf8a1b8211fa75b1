import TinyLittleOs.Fs.Archive
import TinyLittleOs.Fs.Walk
import Mathlib.Data.List.DropRight

/-!
# The tar file system

`vfs_tar` and `inode_tar`. A walk over the components of a path finds the inode whose number
`tar_lookup` gives for the whole path.
-/

namespace TinyLittleOs.Fs

open Lib Function Forest State

/-! ## The file system of an archive -/

/-- The fields of `inode_tar`. -/
structure TarInode where
  mContents : Nat
  mContentsLength : BitVec 32
  mFilenameLength : Nat
  deriving DecidableEq

namespace Tar

def bytesAt (m : ByteMem) (p n : Nat) : Str := (List.range n).map fun i => m (p + i)

/-- The name in the header, without the slashes around it. -/
def headerName (m : ByteMem) (d : TarInode) : Str :=
  let name := bytesAt m (d.mContents - 512) d.mFilenameLength
  (name.rdropWhile (· = slash)).dropWhile (· = slash)

/-- The root has an empty file name. -/
def myFileName (m : ByteMem) (iNum : BitVec 32) (d : TarInode) : Option Str :=
  if iNum ≠ 2 then
    if d.mContents ≠ 0 then some (headerName m d) else none
  else some []

def concatPathName (myFileName nameArg : Str) : Str :=
  if myFileName.length = 0 then nameArg else myFileName ++ slash :: nameArg

/-- `inode_tar::lookup` -/
def inodeLookup (m : ByteMem) (archive fuel : Nat) (iNum : BitVec 32) (d : TarInode)
    (nameArg : Str) : Option (Except Errno (BitVec 32)) := do
  let myFileName ← myFileName m iNum d
  let concat := concatPathName myFileName nameArg
  if concat.length + 1 > pathNameMax then some (.error .pathTooLong)
  else
    let found ← tarLookup m archive concat fuel
    some (found.map (·.inode))

/-- `vfs_tar` -/
def vfsTar (m : ByteMem) (archive fuel : Nat) : Vfs TarInode where
  construct d := { d with mContents := 0 }
  readInodeDisk n d := (tarLookupByIndex m archive n fuel).map fun
    | .ok x =>
      { mContents := x.content
        mContentsLength := x.fileLen
        mFilenameLength := x.filenameLength }
    | .error _ => d
  lookup := inodeLookup m archive fuel

/-- Every file system is the one of the archive. -/
def tarEnv (m : ByteMem) (archive fuel : Nat) (slots : Nat → Slot TarInode) : Env TarInode where
  vfs _ := vfsTar m archive fuel
  slots := slots

end Tar

/-! ## Components of a path -/

/-- The components of a path: what stands between its slashes. -/
def components (path : Str) : List Str := (path.splitOn slash).filter (· ≠ [])

/-- The components, joined by single slashes. -/
def joined (cs : List Str) : Str := [slash].intercalate cs

theorem components_nil : components [] = [] := by
  simp [components]

theorem components_slash (path : Str) : components (slash :: path) = components path := by
  rw [components, List.splitOn_cons_eq_if_modifyHead, if_pos (by simp)]
  simp [components]

/-- A component of a path, without null bytes. -/
structure Component (c : Str) : Prop where
  ne_nil : c ≠ []
  no_slash : slash ∉ c
  no_nul : (0 : BitVec 8) ∉ c

theorem take_untilSlash_ne_nil {c : BitVec 8} (hc : c ≠ slash) (path : Str) :
    (c :: path).take (untilSlash (c :: path)) ≠ [] := by
  simp [untilSlash, List.findIdx_cons, hc]

theorem length_drop_untilSlash_lt {c : BitVec 8} (hc : c ≠ slash) (path : Str) :
    ((c :: path).drop (untilSlash (c :: path))).length < (c :: path).length := by
  have hpos : untilSlash (c :: path) ≠ 0 := by
    intro hzero
    exact take_untilSlash_ne_nil hc path (by rw [hzero, List.take_zero])
  rw [List.length_drop, List.length_cons]
  omega

theorem slash_notMem_take (path : Str) : slash ∉ path.take (untilSlash path) := by
  intro hbad
  obtain ⟨i, hi, hget⟩ := List.getElem_of_mem hbad
  rw [List.getElem_take] at hget
  have hlt : i < untilSlash path := by
    rw [List.length_take] at hi
    omega
  have hnot := List.not_of_lt_findIdx hlt
  simp [hget] at hnot

theorem components_cons {c : BitVec 8} (hc : c ≠ slash) (path : Str) :
    components (c :: path) = (c :: path).take (untilSlash (c :: path)) ::
      components ((c :: path).drop (untilSlash (c :: path))) := by
  have hne := take_untilSlash_ne_nil hc path
  have hmem := slash_notMem_take (c :: path)
  cases hdrop : (c :: path).drop (untilSlash (c :: path)) with
  | nil =>
    have htake : (c :: path).take (untilSlash (c :: path)) = c :: path := by
      rw [List.take_of_length_le (List.drop_eq_nil_iff.1 hdrop)]
    rw [htake] at hmem ⊢
    rw [components_nil, components, List.splitOn_eq_singleton hmem]
    simp
  | cons d rest =>
    have hlt : (c :: path).findIdx (· = slash) < (c :: path).length := by
      by_contra hge
      rw [List.drop_eq_nil_of_le (by rw [untilSlash]; omega)] at hdrop
      cases hdrop
    have hd : d = slash := by
      rw [untilSlash, List.drop_eq_getElem_cons hlt, List.cons.injEq] at hdrop
      have hget := List.findIdx_getElem (w := hlt)
      rw [hdrop.1] at hget
      exact of_decide_eq_true hget
    subst hd
    have hsplit : c :: path = (c :: path).take (untilSlash (c :: path)) ++ slash :: rest := by
      rw [← hdrop, List.take_append_drop]
    rw [components_slash, components]
    conv_lhs => rw [hsplit]
    rw [List.splitOn_append_cons_self_of_not_mem hmem, List.filter_cons_of_pos (by simpa using hne)]
    rfl

theorem component_of_mem {path : Str} (h0 : (0 : BitVec 8) ∉ path) :
    ∀ c ∈ components path, Component c := by
  induction hn : path.length using Nat.strong_induction_on generalizing path with
  | _ n ih =>
    cases path with
    | nil => simp [components_nil]
    | cons c path =>
      by_cases hc : c = slash
      · rw [hc, components_slash]
        refine ih path.length ?_ (fun hm => h0 (List.mem_cons_of_mem _ hm)) rfl
        rw [← hn]
        exact Nat.lt_succ_self _
      · rw [components_cons hc]
        refine List.forall_mem_cons.2 ⟨⟨take_untilSlash_ne_nil hc path, slash_notMem_take _,
          fun hm => h0 (List.mem_of_mem_take hm)⟩,
          ih _ ?_ (fun hm => h0 (List.mem_of_mem_drop hm)) rfl⟩
        rw [← hn]
        exact length_drop_untilSlash_lt hc path

theorem joined_append {a b : List Str} (ha : a ≠ []) (hb : b ≠ []) :
    joined (a ++ b) = joined a ++ slash :: joined b := by
  induction a with
  | nil => exact absurd rfl ha
  | cons c a ih =>
    cases a with
    | nil => simp [joined, List.intercalate_cons_of_ne_nil hb]
    | cons d a =>
      have hrest := ih (by simp)
      simp only [joined, List.cons_append, List.intercalate_cons_cons] at hrest ⊢
      simp [hrest]

theorem joined_concat {cs : List Str} (hcs : cs ≠ []) (c : Str) :
    joined (cs ++ [c]) = joined cs ++ slash :: c := by
  rw [joined_append hcs (by simp)]
  simp [joined]

/-- The joined components are a name with no slash at either end. -/
theorem joined_plain {cs : List Str} (hne : cs ≠ []) (hcs : ∀ c ∈ cs, Component c) :
    Plain (joined cs) ∧ (joined cs).head? ≠ some slash := by
  induction cs with
  | nil => exact absurd rfl hne
  | cons c cs ih =>
    have hc := hcs c List.mem_cons_self
    have hhead : ∀ t : Str, (c ++ t).head? ≠ some slash := by
      intro t he
      obtain ⟨x, u, rfl⟩ := List.exists_cons_of_ne_nil hc.ne_nil
      exact hc.no_slash (by simp_all)
    cases cs with
    | nil =>
      rw [joined, List.intercalate_singleton]
      refine ⟨⟨hc.ne_nil, hc.no_nul, fun he => hc.no_slash (List.mem_of_getLast? he)⟩, ?_⟩
      simpa using hhead []
    | cons d cs =>
      obtain ⟨hplain, -⟩ := ih (by simp) fun x hx => hcs x (List.mem_cons_of_mem c hx)
      have hj : joined (c :: d :: cs) = c ++ slash :: joined (d :: cs) := by
        simp [joined]
      rw [hj]
      refine ⟨⟨by simp, ?_, ?_⟩, hhead _⟩
      · have h0 : (0 : BitVec 8) ≠ slash := by decide
        simp only [List.mem_append, List.mem_cons, not_or]
        exact ⟨hc.no_nul, h0, hplain.no_nul⟩
      · rw [List.getLast?_append_of_ne_nil _ (by simp),
          List.getLast?_cons_of_ne_nil hplain.ne_nil]
        exact hplain.last

theorem component_append {cs : List Str} (hcs : ∀ c ∈ cs, Component c) {name : Str}
    (hname : Component name) : ∀ c ∈ cs ++ [name], Component c := by
  intro c hc
  rcases List.mem_append.1 hc with hc | hc
  · exact hcs c hc
  · rwa [List.mem_singleton.1 hc]

/-! ## Inodes and names -/

theorem bytesAt_of_hasBytes {m : ByteMem} {p : Nat} {f : Str} (h : HasBytes m p f) :
    Tar.bytesAt m p f.length = f := by
  apply List.ext_getElem
  · simp [Tar.bytesAt]
  · intro i hi hi'
    simpa [Tar.bytesAt] using h i hi'

theorem headerName_eq {m : ByteMem} {d : TarInode} {f : Str} (hplain : Plain f)
    (hhead : f.head? ≠ some slash) (hbytes : HasBytes m (d.mContents - 512) f)
    (hlen : d.mFilenameLength = f.length) : Tar.headerName m d = f := by
  have hr : f.rdropWhile (· = slash) = f := by
    rw [List.rdropWhile_eq_self_iff]
    intro hne hbad
    exact hplain.last (by rw [List.getLast?_eq_some_getLast hne, of_decide_eq_true hbad])
  have hl : f.dropWhile (· = slash) = f := by
    rw [List.dropWhile_eq_self_iff]
    intro hpos hbad
    exact hhead
      (by rw [List.head?_eq_getElem?, List.getElem?_eq_getElem hpos, of_decide_eq_true hbad])
  rw [Tar.headerName, hlen, bytesAt_of_hasBytes hbytes, hr, hl]

section Archive

variable {m : ByteMem} {archive fuel : Nat} {es : List Entry} (h : Archive m archive es)
  (hfuel : es.length + 101 ≤ fuel)
include h hfuel

/-- The lookup of an inode finds no root. -/
theorem tarEnv_noRoot {slots : Nat → Slot TarInode} : NoRoot (Tar.tarEnv m archive fuel slots) := by
  intro fs n d name hbad
  change Tar.inodeLookup m archive fuel n d name = _ at hbad
  rw [Tar.inodeLookup] at hbad
  obtain ⟨name', -, hbad⟩ := Option.bind_eq_some_iff.1 hbad
  dsimp only at hbad
  split_ifs at hbad
  · cases hbad
  · obtain ⟨r, hr, hbad⟩ := Option.bind_eq_some_iff.1 hbad
    cases r with
    | error e => cases hbad
    | ok c =>
      have hge := h.number_ge hfuel hr
      have hroot : c.inode = rootInode := Except.ok.inj (Option.some.inj hbad)
      rw [hroot] at hge
      exact absurd hge (by decide)

/-- The inode is the one of the path with the components `cs`, the root when there are none. -/
structure NamedBy (m : ByteMem) (archive fuel : Nat) (cs : List Str) (i : Inode TarInode) :
    Prop where
  root : i.iNum = rootInode ↔ cs = []
  found : cs ≠ [] → ∃ r, Tar.tarLookup m archive (joined cs) fuel = some (.ok r) ∧ r.inode = i.iNum

/-- A walk from `s₀` comes to the inode with the components `cs`, or the archive has none. -/
def Resolves (E : Env TarInode) (m : ByteMem) (archive fuel : Nat)
    (s₀ s : State TarInode) (fs : Nat)
    (cs : List Str) : Except Errno Nat → Prop
  | .ok obj => ∃ i, At E s₀ s fs obj i ∧ NamedBy m archive fuel cs i
  | .error _ => ∀ c, Tar.tarLookup m archive (joined cs) fuel ≠ some (.ok c)

/-- What an inode read from the disk holds. -/
theorem NamedBy.myFileName {cs : List Str} {i : Inode TarInode} (hi : NamedBy m archive fuel cs i)
    (hcs : ∀ c ∈ cs, Component c) (hne : cs ≠ []) {d : TarInode}
    (hread : (Tar.vfsTar m archive fuel).readInodeDisk i.iNum d = some i.data) :
    Tar.myFileName m i.iNum i.data = some (joined cs) := by
  obtain ⟨hplain, hhead⟩ := joined_plain hne hcs
  obtain ⟨r, hr, hnum⟩ := hi.found hne
  obtain ⟨-, hbytes, len, hindex⟩ := h.byIndex hplain hr
  have hdata : i.data = ⟨r.content, len, (joined cs).length⟩ := by
    simp only [Tar.vfsTar, ← hnum, hindex fuel hfuel, Option.map_some, Option.some.injEq] at hread
    exact hread.symm
  have hcontent : i.data.mContents ≠ 0 := by
    obtain ⟨u, e, -, rfl⟩ := h.first hplain.no_nul hr
    rw [hdata]
    exact Nat.succ_ne_zero _
  have hroot : i.iNum ≠ 2 := fun he => hne (hi.root.1 he)
  have hname : Tar.headerName m i.data = joined cs := by
    refine headerName_eq hplain hhead ?_ (by rw [hdata])
    rwa [hdata]
  rw [Tar.myFileName, if_pos hroot, if_pos hcontent, hname]

/-- The lookup of a component in an inode is the lookup of the longer path. -/
theorem NamedBy.inodeLookup {cs : List Str} {i : Inode TarInode} (hi : NamedBy m archive fuel cs i)
    (hcs : ∀ c ∈ cs, Component c)
    (hread : cs ≠ [] → ∃ d, (Tar.vfsTar m archive fuel).readInodeDisk i.iNum d = some i.data)
    {name : Str} (hname : Component name) :
    ∃ r, Tar.inodeLookup m archive fuel i.iNum i.data name = some r ∧ ∀ n, r = .ok n ↔
      ∃ c, Tar.tarLookup m archive (joined (cs ++ [name])) fuel = some (.ok c) ∧ c.inode = n := by
  have hconcat : Tar.inodeLookup m archive fuel i.iNum i.data name =
      if (joined (cs ++ [name])).length + 1 > pathNameMax then some (.error .pathTooLong)
      else (Tar.tarLookup m archive (joined (cs ++ [name])) fuel).bind fun found =>
        some (found.map (·.inode)) := by
    by_cases hne : cs = []
    · have hroot : i.iNum = 2 := hi.root.2 hne
      have hmine : Tar.myFileName m i.iNum i.data = some [] := if_neg (not_not_intro hroot)
      have hj : joined ([] ++ [name]) = name := by simp [joined]
      rw [Tar.inodeLookup, hmine, hne, hj]
      rfl
    · obtain ⟨d, hd⟩ := hread hne
      have hpos : (joined cs).length ≠ 0 := by
        simpa using (joined_plain hne hcs).1.ne_nil
      rw [Tar.inodeLookup, hi.myFileName h hfuel hcs hne hd, joined_concat hne,
        Option.bind_eq_bind, Option.bind_some, Tar.concatPathName, if_neg hpos]
      rfl
  rw [hconcat]
  by_cases hlong : (joined (cs ++ [name])).length + 1 > pathNameMax
  · rw [if_pos hlong]
    have hmax : (joined (cs ++ [name])).length > 99 := by
      rw [pathNameMax] at hlong
      omega
    refine ⟨_, rfl, fun n => iff_of_false (by simp) ?_⟩
    rw [Tar.tarLookup, if_pos hmax]
    rintro ⟨c, hc, -⟩
    cases hc
  · rw [if_neg hlong]
    have hsome : ∃ found, Tar.tarLookup m archive (joined (cs ++ [name])) fuel = some found := by
      refine h.lookup_some (joined_plain (by simp) ?_).1.no_nul hfuel
      intro c hc
      rcases List.mem_append.1 hc with hc | hc
      · exact hcs c hc
      · rwa [List.mem_singleton.1 hc]
    obtain ⟨found, hfound⟩ := hsome
    rw [hfound]
    refine ⟨_, rfl, fun n => ?_⟩
    cases found with
    | error e => exact iff_of_false (by simp [Except.map]) (by simp)
    | ok c => simp [Except.map]

/-- The inode that is found has the longer path, and can be read from the disk. -/
theorem NamedBy.next {cs : List Str} {i : Inode TarInode} (hi : NamedBy m archive fuel cs i)
    (hcs : ∀ c ∈ cs, Component c)
    (hread : cs ≠ [] → ∃ d, (Tar.vfsTar m archive fuel).readInodeDisk i.iNum d = some i.data)
    {name : Str} (hname : Component name) {n : BitVec 32}
    (hlook : Tar.inodeLookup m archive fuel i.iNum i.data name = some (.ok n)) :
    n ≠ rootInode ∧ (∀ d, ∃ d', (Tar.vfsTar m archive fuel).readInodeDisk n d = some d') ∧
      ∀ j : Inode TarInode, j.iNum = n → NamedBy m archive fuel (cs ++ [name]) j := by
  obtain ⟨r, hlook', hiff⟩ := hi.inodeLookup h hfuel hcs hread hname
  obtain rfl := Option.some.inj (hlook'.symm.trans hlook)
  obtain ⟨found, hfound, hnum⟩ := (hiff n).1 rfl
  have hplain := (joined_plain (by simp) (component_append hcs hname)).1
  obtain ⟨hge, -, len, hindex⟩ := h.byIndex hplain hfound
  have hn : n ≠ rootInode := by
    rintro rfl
    rw [hnum] at hge
    exact absurd hge (by decide)
  refine ⟨hn, fun d => ⟨⟨found.content, len, (joined (cs ++ [name])).length⟩, ?_⟩, fun j hj => ?_⟩
  · show (Tar.tarLookupByIndex m archive n fuel).map _ = _
    rw [← hnum, hindex fuel hfuel]
    rfl
  · refine ⟨iff_of_false (fun he => hn (hj.symm.trans he)) (by simp), fun _ => ?_⟩
    exact ⟨found, hfound, hnum.trans hj.symm⟩

/-- No longer path is in the archive where a component is not found. -/
theorem NamedBy.missing {cs : List Str} {i : Inode TarInode} (hi : NamedBy m archive fuel cs i)
    (hcs : ∀ c ∈ cs, Component c)
    (hread : cs ≠ [] → ∃ d, (Tar.vfsTar m archive fuel).readInodeDisk i.iNum d = some i.data)
    {name : Str} (hname : Component name) {e : Errno}
    (hlook : Tar.inodeLookup m archive fuel i.iNum i.data name = some (.error e))
    {rest : Str} (h0 : (0 : BitVec 8) ∉ rest) (c : Tar.Found) :
    Tar.tarLookup m archive (joined (cs ++ name :: Fs.components rest)) fuel ≠ some (.ok c) := by
  intro hbad
  obtain ⟨r, hlook', hiff⟩ := hi.inodeLookup h hfuel hcs hread hname
  obtain rfl := Option.some.inj (hlook'.symm.trans hlook)
  have hcs' := component_append hcs hname
  rw [← List.singleton_append, ← List.append_assoc] at hbad
  have hfound : ∃ c, Tar.tarLookup m archive (joined (cs ++ [name])) fuel = some (.ok c) := by
    by_cases hnil : Fs.components rest = []
    · rw [hnil, List.append_nil] at hbad
      exact ⟨c, hbad⟩
    · rw [joined_append (by simp) hnil] at hbad
      refine h.lookup_prefix ?_ hfuel hbad
      rw [← joined_append (by simp) hnil]
      refine (joined_plain (by simp) fun x hx => ?_).1.no_nul
      exact (List.mem_append.1 hx).elim (hcs' x) (component_of_mem h0 x)
  obtain ⟨c, hc⟩ := hfound
  cases (hiff c.inode).2 ⟨c, hc, rfl⟩

section Walk

variable {E : Env TarInode} {fs : Nat} (hE : E.vfs fs = Tar.vfsTar m archive fuel)
  {s₀ s : State TarInode} {curr : Nat} {i : Inode TarInode} {cs : List Str}
  (hi : NamedBy m archive fuel cs i) (hcs : ∀ c ∈ cs, Component c)

omit h hfuel in
include hE hi in
/-- What the inode of a walk holds was read from the disk. -/
theorem At.loaded (hw : At E s₀ s fs curr i) (hne : cs ≠ []) :
    ∃ d, (Tar.vfsTar m archive fuel).readInodeDisk i.iNum d = some i.data := by
  have hload := (hw.wf.sound curr i hw.inode).loaded fun he => hne (hi.root.1 he)
  rwa [hw.owner, hE] at hload

include hE hi hcs

/-- The inode that a walk reaches is the one of the path that it took. A walk that fails leaves no
inode with the name of the path. -/
theorem At.components (hrc : NonZero E) (hw : At E s₀ s fs curr i) {path : Str}
    (h0 : (0 : BitVec 8) ∉ path) {steps : Nat} {s' : State TarInode} {r : Except Errno Nat}
    (hrun : State.walk E fs steps s path curr = some (s', r)) :
    Resolves E m archive fuel s₀ s' fs (cs ++ Fs.components path) r := by
  induction steps generalizing s curr i path cs with
  | zero => cases hrun
  | succ steps ih =>
    cases path with
    | nil =>
      cases hrun
      refine ⟨i, hw, ?_⟩
      rwa [components_nil, List.append_nil]
    | cons c path =>
      rw [State.walk] at hrun
      by_cases hc : c = slash
      · subst hc
        rw [if_pos rfl] at hrun
        rw [components_slash]
        exact ih hi hcs hw (fun hm => h0 (List.mem_cons_of_mem _ hm)) hrun
      · have hname : Component ((c :: path).take (untilSlash (c :: path))) :=
          ⟨take_untilSlash_ne_nil hc path, slash_notMem_take _, fun hm =>
            h0 (List.mem_of_mem_take hm)⟩
        have hnul : (0 : BitVec 8) ∉ (c :: path).drop (untilSlash (c :: path)) :=
          fun hm => h0 (List.mem_of_mem_drop hm)
        rw [if_neg hc] at hrun
        rw [components_cons hc]
        dsimp only at hrun
        generalize (c :: path).drop (untilSlash (c :: path)) = rest at hnul hrun ⊢
        generalize (c :: path).take (untilSlash (c :: path)) = name at hname hrun ⊢
        rw [hw.inode, Option.bind_eq_bind, Option.bind_some, hw.owner, hE] at hrun
        obtain ⟨found, hlook, hrun⟩ := Option.bind_eq_some_iff.1 hrun
        cases found with
        | error e =>
          obtain ⟨s₁, -, hrun⟩ := Option.bind_eq_some_iff.1 hrun
          cases hrun
          exact hi.missing h hfuel hcs (At.loaded hE hi hw) hname hlook hnul
        | ok n =>
          obtain ⟨-, -, hnamed⟩ := hi.next h hfuel hcs (At.loaded hE hi hw) hname hlook
          obtain ⟨⟨s₁, a⟩, hget, hrun⟩ := Option.bind_eq_some_iff.1 hrun
          obtain ⟨s₂, hdrop, hrun⟩ := Option.bind_eq_some_iff.1 hrun
          obtain ⟨j, hnext, hj⟩ := hw.next hrc hget hdrop
          rw [← List.singleton_append, ← List.append_assoc]
          exact ih (hnamed j hj) (component_append hcs hname) hnext hnul hrun

/-- A walk that always can stop, and can go on another `k` times, comes to its end. -/
theorem walk_returns {P : Nat → State TarInode → Nat → Inode TarInode → Prop}
    (hat : ∀ {k s curr i}, P k s curr i → At E s₀ s fs curr i)
    (hstop : ∀ {k s curr i}, P k s curr i → ∃ s', s.releaseUnlessRoot curr = some s')
    (hnext : ∀ {k s curr i n}, P (k + 1) s curr i → n ≠ rootInode →
      (∀ d, ∃ d', (E.vfs fs).readInodeDisk n d = some d') →
      ∃ s₁ a s₂ j, s.getInodeStruct E fs n curr = some (s₁, a) ∧
        s₁.releaseUnlessRoot curr = some s₂ ∧ P k s₂ a j ∧ j.iNum = n)
    {k : Nat} (hw : P k s curr i) {path : Str} (h0 : (0 : BitVec 8) ∉ path)
    (hk : path.length ≤ k) {steps : Nat} (hsteps : path.length < steps) :
    ∃ s' r, State.walk E fs steps s path curr = some (s', r) ∧
      ∀ obj, r = .ok obj → ∃ l j, P l s' obj j := by
  induction steps generalizing s curr i path cs k with
  | zero => omega
  | succ steps ih =>
    cases path with
    | nil =>
      refine ⟨s, .ok curr, rfl, fun obj hobj => ?_⟩
      cases hobj
      exact ⟨k, i, hw⟩
    | cons c path =>
      rw [List.length_cons] at hsteps hk
      by_cases hc : c = slash
      · rw [State.walk, if_pos hc]
        exact ih hi hcs hw (fun hm => h0 (List.mem_cons_of_mem _ hm)) (by omega) (by omega)
      · have hname : Component ((c :: path).take (untilSlash (c :: path))) :=
          ⟨take_untilSlash_ne_nil hc path, slash_notMem_take _, fun hm =>
            h0 (List.mem_of_mem_take hm)⟩
        have hrest : ((c :: path).drop (untilSlash (c :: path))).length < path.length + 1 :=
          length_drop_untilSlash_lt hc path
        have hnul : (0 : BitVec 8) ∉ (c :: path).drop (untilSlash (c :: path)) :=
          fun hm => h0 (List.mem_of_mem_drop hm)
        rw [State.walk, if_neg hc]
        dsimp only
        generalize (c :: path).drop (untilSlash (c :: path)) = rest at hrest hnul ⊢
        generalize (c :: path).take (untilSlash (c :: path)) = name at hname ⊢
        obtain ⟨r, hlook, -⟩ := hi.inodeLookup h hfuel hcs (At.loaded hE hi (hat hw)) hname
        have hlook' : (Tar.vfsTar m archive fuel).lookup i.iNum i.data name = some r := hlook
        simp only [(hat hw).inode, (hat hw).owner, hE, hlook', Option.bind_eq_bind,
          Option.bind_some]
        cases r with
        | error e =>
          obtain ⟨s₁, hstop⟩ := hstop hw
          exact ⟨s₁, .error e, by simp only [hstop, Option.bind_some], fun _ hbad => by cases hbad⟩
        | ok n =>
          obtain ⟨hn, hread, hnamed⟩ := hi.next h hfuel hcs (At.loaded hE hi (hat hw)) hname hlook
          obtain ⟨k, rfl⟩ : ∃ j, k = j + 1 := ⟨k - 1, by omega⟩
          obtain ⟨s₁, a, s₂, j, hget, hdrop, hw', hj⟩ := hnext hw hn (by rw [hE]; exact hread)
          simp only [hget, hdrop, Option.bind_some]
          exact ih (hnamed j hj) (component_append hcs hname) hw' hnul (by omega) (by omega)

/-- A walk comes to its end with its reference, when there is room for it. -/
theorem Walking.returns (hone : OneRef E) (hw : Walking E s₀ s fs curr i)
    (hown : Walking.Owned s₀ s curr i) (hroom : Room 2 s₀) {path : Str}
    (h0 : (0 : BitVec 8) ∉ path) {steps : Nat} (hsteps : path.length < steps) :
    ∃ s' r, State.walk E fs steps s path curr = some (s', r) := by
  obtain ⟨s', r, hrun, -⟩ := walk_returns h hfuel hE hi hcs (k := path.length)
    (P := fun _ s curr i => Walking E s₀ s fs curr i ∧ Walking.Owned s₀ s curr i)
    (fun hp => hp.1.toAt) (fun hp => hp.1.exists_stop hp.2)
    (fun hp hn hread => by
      obtain ⟨s₁, a, s₂, j, hget, hdrop, hnext, hown', hj⟩ :=
        hp.1.exists_next hp.2 hroom hone hn fun _ => hread _
      exact ⟨s₁, a, s₂, j, hget, hdrop, ⟨hnext, hown'⟩, hj⟩)
    ⟨hw, hown⟩ h0 (Nat.le_refl _) hsteps
  exact ⟨s', r, hrun⟩

/-- A walk comes to its end, when there is room for a reference to each of its inodes. -/
theorem Roaming.returns (hrc : NonZero E) {k : Nat} {path : Str}
    (hslots : ∀ n, (E.slots n).rc.toNat + (k + path.length) < 2 ^ 31) {e : Nat → Nat}
    (he : s₀.Counted e) (hw : Roaming E s₀ s fs curr i) (hroom : Room (k + path.length) s)
    (h0 : (0 : BitVec 8) ∉ path) {steps : Nat} (hsteps : path.length < steps) :
    ∃ s' r, State.walk E fs steps s path curr = some (s', r) ∧
      ∀ obj, r = .ok obj → ∃ j, Roaming E s₀ s' fs obj j ∧ Room k s' := by
  obtain ⟨s', r, hrun, hend⟩ := walk_returns h hfuel hE hi hcs (k := path.length)
    (P := fun l s curr i => Roaming E s₀ s fs curr i ∧ Room (k + l) s ∧ l ≤ path.length)
    (fun hp => hp.1.toAt) (fun hp => hp.1.exists_stop he (hp.2.1.mono (Nat.zero_le _)))
    (fun {l s curr i n} hp hn hread => by
      obtain ⟨hroaming, hroom, hl⟩ := hp
      obtain ⟨s₁, a, s₂, j, hget, hdrop, ⟨hnext, hroom'⟩, hj⟩ :=
        hroaming.exists_next hrc (k := k + l) (fun n => by have := hslots n; omega) he hroom hn
          hread
      exact ⟨s₁, a, s₂, j, hget, hdrop, ⟨hnext, hroom', by omega⟩, hj⟩)
    ⟨hw, hroom, Nat.le_refl _⟩ h0 (Nat.le_refl _) hsteps
  refine ⟨s', r, hrun, fun obj hobj => ?_⟩
  obtain ⟨l, j, hj, hroom', -⟩ := hend obj hobj
  exact ⟨j, hj, hroom'.mono (Nat.le_add_right k l)⟩

end Walk

omit h hfuel in
theorem bestMount_singleton {p rest : Str} {fs : Nat} (hp : p ≠ [])
    (hrest : p.length = 1 ∨ rest.head? = some slash) :
    bestMount [⟨p, fs⟩] (p ++ rest) = some ⟨p, fs⟩ := by
  have hlen : ¬ (p.length ≤ 0 ∨ (p ++ rest).length < p.length) := by
    have hpos := List.length_pos_iff.2 hp
    rw [List.length_append]
    omega
  have hbound : p.length = 1 ∨ (p ++ rest).length = p.length ∨ (p ++ rest)[p.length]? =
      some slash := by
    rcases hrest with h1 | hs
    · exact .inl h1
    · refine .inr (.inr ?_)
      rwa [List.getElem?_append_right (Nat.le_refl _), Nat.sub_self, ← List.head?_eq_getElem?]
  have hprefix : p.isPrefixOf (p ++ rest) = true := by simp
  rw [bestMount, List.foldl_cons, List.foldl_nil, bestMountStep]
  simp only [Option.map_none, Option.getD_none, if_neg hlen, if_neg (not_not_intro hbound), hprefix,
    if_true]

/-- Resolving a path component by component finds the inode with the number that `tar_lookup` gives
for the components joined by single slashes. Where there is room for the references, it returns. -/
theorem traverse_tarLookup {E : Env TarInode} {fs : Nat} (hE : E.vfs fs = Tar.vfsTar m archive fuel)
    (hone : OneRef E) (hnoroot : NoRoot E) {y : Client TarInode} (hy : Client.Reachable E y)
    (hroot : y.state.table fs rootInode ≠ none) {p rest : Str}
    (hbest : bestMount y.state.mounts (p ++ rest) = some ⟨p, fs⟩)
    (h0 : (0 : BitVec 8) ∉ rest) (hne : Fs.components rest ≠ []) :
    ∃ found, Tar.tarLookup m archive (joined (Fs.components rest)) fuel = some found ∧
      (∀ s' r, y.state.traverse E (p ++ rest) = some (s', r) →
        ∀ n, (∃ obj i, r = .ok obj ∧ s'.inodes obj = some i ∧ i.iNum = n) ↔
          ∃ c, found = .ok c ∧ c.inode = n) ∧
      (Room 2 y.state → ∃ s' r, y.state.traverse E (p ++ rest) = some (s', r)) := by
  have hwf := hy.wf hone hnoroot
  obtain ⟨root, htable⟩ := Option.ne_none_iff_exists'.1 hroot
  obtain ⟨i, hi, hw⟩ := hwf.walking htable
  have hnamed : NamedBy m archive fuel [] i := ⟨by simp [hi], fun hbad => absurd rfl hbad⟩
  obtain ⟨found, hfound⟩ := h.lookup_some (joined_plain hne (component_of_mem h0)).1.no_nul hfuel
  have hsteps : rest.length < (p ++ rest).length + 1 := by
    rw [List.length_append]
    omega
  have hrun : y.state.traverse E (p ++ rest) =
      State.walk E fs ((p ++ rest).length + 1) y.state rest root := by
    have hrest : rest ≠ [] := by
      rintro rfl
      exact hne components_nil
    have hpath : p ++ rest ≠ [] := by simp [hrest]
    have hsome : y.state.mounts ≠ [] := by
      intro hnil
      rw [hnil] at hbest
      cases hbest
    rw [State.traverse, if_neg hpath, if_neg hsome, hbest]
    simp only [htable, Option.bind_eq_bind, Option.bind_some, List.drop_left]
  refine ⟨found, hfound, fun s' r htraverse n => ?_, fun hroom => ?_⟩
  · rw [hrun] at htraverse
    have hr := At.components h hfuel hE hnamed (by simp) hone.nonZero hw.toAt h0 htraverse
    rw [List.nil_append] at hr
    cases r with
    | error e =>
      refine iff_of_false ?_ ?_
      · rintro ⟨obj, i, hbad, -⟩
        cases hbad
      · rintro ⟨c, rfl, -⟩
        exact hr c hfound
    | ok obj =>
      obtain ⟨j, hj, hjnamed⟩ := hr
      obtain ⟨c, hc, hnum⟩ := hjnamed.found hne
      obtain rfl := Option.some.inj (hfound.symm.trans hc)
      constructor
      · rintro ⟨obj', i', hobj, hi', rfl⟩
        cases hobj
        obtain rfl := Option.some.inj (hj.inode.symm.trans hi')
        exact ⟨c, rfl, hnum⟩
      · rintro ⟨c', hc', rfl⟩
        cases hc'
        exact ⟨obj, j, rfl, hj.inode, hnum.symm⟩
  · rw [hrun]
    exact Walking.returns h hfuel hE hnamed (by simp) hone hw (Walking.owned_start hi) hroom h0
      hsteps

end Archive

/-- Each new inode starts with one reference. -/
def oneRefSlots : Nat → Slot TarInode := fun _ => ⟨1, ⟨0, 0, 0⟩⟩

/-- Only the root is there, with the count that its memory held. -/
theorem mount_room {D : Type} {E : Env D} {k : Nat} (hslot : (E.slots 0).rc.toNat + k < 2 ^ 31)
    {p : Str} {fs : Nat} {s : State D} (hmount : State.empty.mount E p fs = some s) : Room k s := by
  simp only [State.mount, allocInodeStruct, takeParentStruct, Option.bind_eq_bind,
    Option.bind_some] at hmount
  split_ifs at hmount
  cases hmount
  intro a i hi
  dsimp only at hi
  by_cases ha : a = 0
  · rw [ha, show (State.empty : State D).nextInode = 0 from rfl, update_self,
      Option.some.injEq] at hi
    rw [← hi]
    exact hslot
  · rw [show (State.empty : State D).nextInode = 0 from rfl, update_of_ne ha] at hi
    cases hi

theorem traverse_tarLookup_oneFile :
    ∃ (y : Client TarInode) (s' : State TarInode) (r : Except Errno Nat),
      y.state.traverse (Tar.tarEnv oneFile 0 102 oneRefSlots) [slash, 0x61, slash, slash, 0x62] =
        some (s', r) ∧ ∃ obj i, r = .ok obj ∧ s'.inodes obj = some i ∧ i.iNum = 4 := by
  have hy : ∃ s, State.empty.mount (Tar.tarEnv oneFile 0 102 oneRefSlots) [slash] 0 = some s ∧
      s.mounts = [⟨[slash], 0⟩] ∧ s.table 0 rootInode ≠ none :=
    ⟨_, rfl, rfl, Option.some_ne_none _⟩
  obtain ⟨s, hmount, hmounts, hroot⟩ := hy
  have hnul : (0 : BitVec 8) ∉ [0x61, slash, slash, 0x62] := by decide
  obtain ⟨found, hfound, hiff, hreturns⟩ := traverse_tarLookup oneFile_archive (Nat.le_refl _)
    (show (Tar.tarEnv oneFile 0 102 oneRefSlots).vfs 0 = _ from rfl) (fun _ => rfl)
    (tarEnv_noRoot oneFile_archive (Nat.le_refl _)) (y := ⟨s, []⟩)
    (.mount .empty (fun _ => rfl) hmount) hroot (p := [slash])
    (by rw [hmounts]; decide) hnul (by decide)
  have hlookup : Tar.tarLookup oneFile 0 (joined (components [0x61, slash, slash, 0x62])) 102 =
      some (.ok ⟨4, 512, 5⟩) := by
    decide +kernel
  obtain ⟨s', r, hrun⟩ := hreturns (mount_room (by decide) hmount)
  refine ⟨_, s', r, hrun, (hiff s' r hrun 4).2 ⟨⟨4, 512, 5⟩, ?_, rfl⟩⟩
  exact Option.some.inj (hfound.symm.trans hlookup)

/-- An archive with two empty files, `a` and `a/b`. -/
def twoFiles : ByteMem := fun x =>
  if x = 0 then 0x61
  else if 512 ≤ x ∧ x < 515 then [0x61, 0x2F, 0x62].getD (x - 512) 0
  else if 0x7c ≤ x % 512 ∧ x % 512 < 0x7c + 11 ∧ x < 1024 then 0x30
  else if 257 ≤ x % 512 ∧ x < 1024 then ustar.getD (x % 512 - 257) 0
  else 0

theorem twoFiles_archive : Archive twoFiles 0 [⟨[0x61], 0⟩, ⟨[0x61, 0x2F, 0x62], 0⟩] where
  entries :=
    ⟨⟨by decide, by decide, by decide, by decide, by decide, by decide, by decide⟩,
    ⟨by decide, by decide, by decide, by decide, by decide, by decide, by decide⟩,
      (by decide : ¬ HasBytes twoFiles (1024 + 257) ustar)⟩
  size_lt := by decide

/-- The runs on the archive of two files that is mounted at `p`. -/
def OnTwoFiles (y : Client TarInode) (p : Str) (fs : Nat) : Prop :=
  Client.Reachable (Tar.tarEnv twoFiles 0 103 oneRefSlots) y ∧ ⟨p, fs⟩ ∈ y.state.mounts ∧
    y.state.table fs rootInode ≠ none

/-- A null byte in a component ends the name of the entry that it finds: the walk goes on from the
file `a`, and `tar_lookup` compares the null byte. -/
theorem traverse_nul_component :
    ∃ y : Client TarInode, OnTwoFiles y [slash] 0 ∧
      (∃ s' obj, y.state.traverse (Tar.tarEnv twoFiles 0 103 oneRefSlots)
        ([slash] ++ [0x61, 0, slash, 0x62]) = some (s', .ok obj)) ∧
      Tar.tarLookup twoFiles 0 (joined (components [0x61, 0, slash, 0x62])) 103 =
        some (.error .noEntry) := by
  have hy : ∃ s, State.empty.mount (Tar.tarEnv twoFiles 0 103 oneRefSlots) [slash] 0 = some s ∧
      ⟨[slash], 0⟩ ∈ s.mounts ∧ s.table 0 rootInode ≠ none ∧
      (s.traverse (Tar.tarEnv twoFiles 0 103 oneRefSlots)
        ([slash] ++ [0x61, 0, slash, 0x62])).map (·.2.toOption) = some (some 2) :=
    ⟨_, rfl, List.mem_singleton_self _, Option.some_ne_none _, by decide +kernel⟩
  obtain ⟨s, hmount, hmounts, hroot, hrun⟩ := hy
  refine ⟨⟨s, []⟩, ⟨.mount .empty (fun _ => rfl) hmount, hmounts, hroot⟩, ?_, by decide +kernel⟩
  obtain ⟨⟨s', r⟩, hrun, hr⟩ := Option.map_eq_some_iff.1 hrun
  cases r with
  | ok obj => exact ⟨s', obj, hrun⟩
  | error e => cases hr

/-- The walk to `/a/b` starts at the mount on `/a`, where there is no `b`. -/
theorem traverse_second_mount :
    ∃ y : Client TarInode, OnTwoFiles y [slash] 0 ∧
      (y.state.traverse (Tar.tarEnv twoFiles 0 103 oneRefSlots)
        ([slash] ++ [0x61, slash, 0x62])).map (·.2) = some (.error .noEntry) ∧
      Tar.tarLookup twoFiles 0 (joined (components [0x61, slash, 0x62])) 103 =
        some (.ok ⟨5, 1024, 0⟩) := by
  have hy : ∃ s s', State.empty.mount (Tar.tarEnv twoFiles 0 103 oneRefSlots) [slash] 0 = some s ∧
      s.mount (Tar.tarEnv twoFiles 0 103 oneRefSlots) [slash, 0x61] 1 = some s' ∧
      (∀ n, s.table 1 n = none) ∧ ⟨[slash], 0⟩ ∈ s'.mounts ∧ s'.table 0 rootInode ≠ none ∧
      (s'.traverse (Tar.tarEnv twoFiles 0 103 oneRefSlots)
        ([slash] ++ [0x61, slash, 0x62])).map (·.2) = some (.error .noEntry) :=
    ⟨_, _, rfl, rfl, fun _ => rfl, List.mem_cons_self, Option.some_ne_none _, by decide +kernel⟩
  obtain ⟨s, s', hmount, hmount', hfs, hmounts, hroot, hrun⟩ := hy
  exact ⟨⟨s', []⟩, ⟨.mount (.mount .empty (fun _ => rfl) hmount) hfs hmount', hmounts, hroot⟩, hrun,
    by decide +kernel⟩

/-- `/ma` is not below the mount point `/m`. -/
theorem traverse_no_boundary :
    ∃ y : Client TarInode, OnTwoFiles y [slash, 0x6D] 0 ∧
      (y.state.traverse (Tar.tarEnv twoFiles 0 103 oneRefSlots)
        ([slash, 0x6D] ++ [0x61])).map (·.2) = some (.error .noEntry) ∧
      Tar.tarLookup twoFiles 0 (joined (components [0x61])) 103 = some (.ok ⟨3, 512, 0⟩) := by
  have hy : ∃ s, State.empty.mount (Tar.tarEnv twoFiles 0 103 oneRefSlots) [slash, 0x6D] 0 =
        some s ∧
      ⟨[slash, 0x6D], 0⟩ ∈ s.mounts ∧ s.table 0 rootInode ≠ none ∧
      (s.traverse (Tar.tarEnv twoFiles 0 103 oneRefSlots)
        ([slash, 0x6D] ++ [0x61])).map (·.2) = some (.error .noEntry) :=
    ⟨_, rfl, List.mem_singleton_self _, Option.some_ne_none _, by decide +kernel⟩
  obtain ⟨s, hmount, hmounts, hroot, hrun⟩ := hy
  exact ⟨⟨s, []⟩, ⟨.mount .empty (fun _ => rfl) hmount, hmounts, hroot⟩, hrun, by decide +kernel⟩

/-- An inode that is opened again and again. -/
theorem reachable_opened {D : Type} {E : Env D} {y : Client D} (hy : Client.Reachable E y) {a : Nat}
    {i : Inode D} (hi : y.state.inodes a = some i) (hrc : i.iRc = 1) {k : Nat} (hk : k < 2 ^ 31) :
    ∃ y', Client.Reachable E y' ∧ y'.state.mounts = y.state.mounts ∧
      y'.state.table = y.state.table ∧
      y'.state.inodes =
        update y.state.inodes a (some { i with iRc := BitVec.ofNat 32 (k + 1) }) := by
  induction k with
  | zero =>
    refine ⟨y, hy, rfl, rfl, ?_⟩
    have hself : { i with iRc := BitVec.ofNat 32 (0 + 1) } = i := by
      rw [show BitVec.ofNat 32 (0 + 1) = i.iRc from hrc.symm]
    rw [hself, ← hi, update_eq_self]
  | succ k ih =>
    obtain ⟨y', hy', hmounts, htable, hinodes⟩ := ih (by omega)
    have hself : y'.state.inodes a = some { i with iRc := BitVec.ofNat 32 (k + 1) } := by
      rw [hinodes, update_self]
    have hpos : 0 < (BitVec.ofNat 32 (k + 1)).toInt := by
      rw [toInt_pos, BitVec.toNat_ofNat, Nat.mod_eq_of_lt (by omega)]
      omega
    have hcall : y'.call E (.openInode a) = some ⟨{ y'.state with
        inodes := update y'.state.inodes a (some { i with iRc := BitVec.ofNat 32 (k + 1) + 1 })
        fileDescs := update y'.state.fileDescs y'.state.nextFile (some ⟨1, a, 0⟩)
        nextFile := y'.state.nextFile + 1 }, y'.held⟩ := by
      simp only [Client.call, State.openInode, State.takeRefLocked, hself, Option.bind_eq_bind,
        Option.bind_some, if_pos hpos]
    refine ⟨_, .call hy' hcall, hmounts, htable, ?_⟩
    dsimp only
    rw [hinodes, update_idem, BitVec.ofNat_add (k + 1) 1]
    rfl

/-- The `2 ^ 31` references to `/a` overflow its count. -/
theorem traverse_overflow :
    ∃ y : Client TarInode, OnTwoFiles y [slash] 0 ∧
      y.state.traverse (Tar.tarEnv twoFiles 0 103 oneRefSlots) ([slash] ++ [0x61]) = none ∧
      Tar.tarLookup twoFiles 0 (joined (components [0x61])) 103 = some (.ok ⟨3, 512, 0⟩) := by
  have hy : ∃ s s', State.empty.mount (Tar.tarEnv twoFiles 0 103 oneRefSlots) [slash] 0 = some s ∧
      s.traverse (Tar.tarEnv twoFiles 0 103 oneRefSlots) [slash, 0x61] = some (s', .ok 1) ∧
      s'.mounts = [⟨[slash], 0⟩] ∧ s'.table 0 rootInode = some 0 ∧ s'.table 0 3 = some 1 ∧
      (∃ i, s'.inodes 0 = some i ∧ i.ownerFs = 0 ∧
        Tar.inodeLookup twoFiles 0 103 i.iNum i.data [0x61] = some (.ok 3)) ∧
      ∃ i, s'.inodes 1 = some i ∧ i.iNum = 3 ∧ i.iRc = 1 :=
    ⟨_, _, rfl, rfl, rfl, rfl, rfl, ⟨_, rfl, rfl, by decide +kernel⟩, _, rfl, rfl, rfl⟩
  obtain ⟨s, s', hmount, htraverse, hmounts, hroot, hentry, ⟨r, hr, hrfs, hlook⟩, i,
    hi, hnum, hrc⟩ :=
    hy
  have hreach : Client.Reachable (Tar.tarEnv twoFiles 0 103 oneRefSlots) ⟨s', [1]⟩ := by
    refine .call (c := .traverse [slash, 0x61]) (.mount .empty (fun _ => rfl) hmount) ?_
    rw [Client.call, htraverse]
    rfl
  obtain ⟨y, hy, hmounts', htable, hinodes⟩ :=
    reachable_opened hreach hi hrc (k := 2 ^ 31 - 1) (by omega)
  replace hmounts' := hmounts'.trans hmounts
  have hroot' : y.state.table 0 rootInode = some 0 := by rw [htable]; exact hroot
  have hentry' : y.state.table 0 3 = some 1 := by rw [htable]; exact hentry
  have hr' : y.state.inodes 0 = some r := by
    rw [hinodes, update_of_ne (by decide)]
    exact hr
  have hi' : y.state.inodes 1 = some { i with iRc := BitVec.ofNat 32 (2 ^ 31 - 1 + 1) } := by
    rw [hinodes, update_self]
  have hneg : ¬ 0 < (BitVec.ofNat 32 (2 ^ 31 - 1 + 1)).toInt := by decide
  have htake : y.state.takeRefLocked 1 = none := by
    rw [State.takeRefLocked, hi', Option.bind_eq_bind, Option.bind_some]
    exact if_neg hneg
  have hget : y.state.getInodeStruct (Tar.tarEnv twoFiles 0 103 oneRefSlots) 0 3 0 = none := by
    simp only [State.getInodeStruct, hentry', hi', hnum, htake, Option.bind_eq_bind,
      Option.bind_some, Option.bind_none, if_true]
  have hbest : bestMount y.state.mounts [slash, 0x61] = some ⟨[slash], 0⟩ := by
    rw [hmounts']
    decide
  refine ⟨y, ⟨hy, ?_, ?_⟩, ?_, by decide +kernel⟩
  · rw [hmounts']
    exact List.mem_singleton_self _
  · rw [hroot']
    exact Option.some_ne_none _
  · have hsome : y.state.mounts ≠ [] := by simp [hmounts']
    rw [show [slash] ++ [(0x61 : BitVec 8)] = [slash, 0x61] from rfl, State.traverse,
      if_neg (by decide), if_neg hsome, hbest]
    simp only [hroot', Option.bind_eq_bind, Option.bind_some, List.length_cons, List.length_nil,
      List.drop_succ_cons, List.drop_zero]
    rw [State.walk, if_neg (by decide)]
    have hlook' : ((Tar.tarEnv twoFiles 0 103 oneRefSlots).vfs r.ownerFs).lookup r.iNum r.data
        (([0x61] : Str).take (untilSlash [0x61])) = some (.ok 3) := hlook
    simp only [hr', hlook', hget, Option.bind_eq_bind, Option.bind_some, Option.bind_none]

/-- The walk and `tar_lookup` differ in these four ways. -/
theorem traverse_not_tarLookup :
    Archive twoFiles 0 [⟨[0x61], 0⟩, ⟨[0x61, 0x2F, 0x62], 0⟩] ∧
      (∃ y : Client TarInode, OnTwoFiles y [slash] 0 ∧
        (∃ s' obj, y.state.traverse (Tar.tarEnv twoFiles 0 103 oneRefSlots)
          ([slash] ++ [0x61, 0, slash, 0x62]) = some (s', .ok obj)) ∧
        Tar.tarLookup twoFiles 0 (joined (components [0x61, 0, slash, 0x62])) 103 =
          some (.error .noEntry)) ∧
      (∃ y : Client TarInode, OnTwoFiles y [slash] 0 ∧
        (y.state.traverse (Tar.tarEnv twoFiles 0 103 oneRefSlots)
          ([slash] ++ [0x61, slash, 0x62])).map (·.2) = some (.error .noEntry) ∧
        Tar.tarLookup twoFiles 0 (joined (components [0x61, slash, 0x62])) 103 =
          some (.ok ⟨5, 1024, 0⟩)) ∧
      (∃ y : Client TarInode, OnTwoFiles y [slash, 0x6D] 0 ∧
        (y.state.traverse (Tar.tarEnv twoFiles 0 103 oneRefSlots)
          ([slash, 0x6D] ++ [0x61])).map (·.2) = some (.error .noEntry) ∧
        Tar.tarLookup twoFiles 0 (joined (components [0x61])) 103 = some (.ok ⟨3, 512, 0⟩)) ∧
      ∃ y : Client TarInode, OnTwoFiles y [slash] 0 ∧
        y.state.traverse (Tar.tarEnv twoFiles 0 103 oneRefSlots) ([slash] ++ [0x61]) = none ∧
        Tar.tarLookup twoFiles 0 (joined (components [0x61])) 103 = some (.ok ⟨3, 512, 0⟩) :=
  ⟨twoFiles_archive, traverse_nul_component, traverse_second_mount, traverse_no_boundary,
    traverse_overflow⟩

end TinyLittleOs.Fs
