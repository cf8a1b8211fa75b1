import TinyLittleOs.Memory.Unread
import TinyLittleOs.Scheduler.ElfPlan
import TinyLittleOs.Scheduler.UserPages

/-!
# What the loader leaves in memory

A page of the plan is allocated from hmem, mapped and filled. While kmem does not grow into hmem the
page tables lie elsewhere, so the bytes of the file come to the new page, and no page that was
loaded before changes. Whether a page can be loaded does not depend on the bytes.
-/

namespace TinyLittleOs.Scheduler

open Lib Memory Memory.Machine

/-! ## Addresses of a user page -/

theorem userEntry_eq {q : Nat} (hq : q % 4096 = 0) (writable : Bool) :
    System.userEntry q writable = q + if writable then 7 else 5 := by
  have hor (k : Nat) (hk : k < 2 ^ 12) : q ||| k = q + k := by
    have h := Nat.two_pow_add_eq_or_of_lt hk (q / 4096)
    have hmul : 2 ^ 12 * (q / 4096) = q := by omega
    rw [hmul] at h
    exact h.symm
  rw [System.userEntry]
  split
  · rw [Nat.or_assoc, Nat.or_assoc]
    exact hor 7 (by decide)
  · rw [Nat.or_assoc]
    exact hor 5 (by decide)

theorem userEntry_present {q : Nat} (hq : q % 4096 = 0) (writable : Bool) :
    System.userEntry q writable &&& present ≠ 0 ∧
    alignPageDown (System.userEntry q writable) = q := by
  rw [userEntry_eq hq, present, Nat.and_one_is_mod, alignPageDown, Nat.shiftLeft_eq,
    Nat.shiftRight_eq_div_pow]
  split <;> omega

/-- A page with the entry of `map_user_page` is translated to its frame. -/
theorem translate_of_userEntry {s : Machine} (hptr : PagePtr (toVirt s.cr3)) {virt q : Nat}
    (hv : virt % 4096 = 0) (hlt : virt < 2 ^ 32) (hq : q % 4096 = 0) {b : Bool}
    (hentry : s.pages.walk tablePage (pageNo (toVirt s.cr3)) (dirOf virt) (tabOf virt) =
      System.userEntry q b) {i : Nat} (hi : i < 4096) :
    s.translate (virt + i) = some (q + i) := by
  obtain ⟨hdir, htab, hoff⟩ := indices_add hv hi
  obtain ⟨hpresent, hframe⟩ := userEntry_present hq b
  rw [translate_eq hptr (by omega), hdir, htab, hoff, hentry, if_neg hpresent, hframe]

/-! ## Writes to a user page -/

/-- The memory with the bytes of `l` from `a` on. -/
def written (m : ByteMem) (a : Nat) (l : List (BitVec 8)) : ByteMem := fun x =>
  if a ≤ x ∧ x < a + l.length then l.getD (x - a) 0 else m x

theorem written_of_mem {m : ByteMem} {a i : Nat} {l : List (BitVec 8)} (hi : i < l.length) :
    written m a l (a + i) = l.getD i 0 := by
  rw [written, if_pos (by omega), Nat.add_sub_cancel_left]

theorem written_of_out {m : ByteMem} {a x : Nat} {l : List (BitVec 8)}
    (hx : x < a ∨ a + l.length ≤ x) :
    written m a l x = m x := by
  rw [written, if_neg (by omega)]

theorem written_cons (m : ByteMem) (a : Nat) (b : BitVec 8) (l : List (BitVec 8)) :
    written (m.store8 a b) (a + 1) l = written m a (b :: l) := by
  funext x
  by_cases hat : x = a
  · subst hat
    rw [written_of_out (Or.inl (Nat.lt_succ_self x)), ByteMem.store8, Function.update_self]
    exact (written_of_mem (l := b :: l) (Nat.succ_pos _)).symm
  · by_cases hin : a + 1 ≤ x ∧ x < a + 1 + l.length
    · obtain ⟨i, rfl⟩ := Nat.exists_eq_add_of_le hin.1
      have hi : i < l.length := by omega
      have hsucc : a + 1 + i = a + (i + 1) := by omega
      rw [written_of_mem hi, hsucc, written_of_mem (Nat.succ_lt_succ hi), List.getD_cons_succ]
    · have hout : x < a ∨ a + (b :: l).length ≤ x := by
        rw [List.length_cons]
        omega
      rw [written_of_out (by omega), written_of_out hout, ByteMem.store8, Function.update_of_ne hat]

/-- The page at `virt` is translated to the frame `q`, whatever is written there. -/
def Backed (s : Machine) (virt q : Nat) : Prop :=
  ∀ m : ByteMem, (∀ x, ¬ System.InPages [q] x → m x = s.mem x) → ∀ i < 4096,
    ({ s with mem := m } : Machine).translate (virt + i) = some (q + i)

theorem putBytes_eq {s : Machine} {virt q : Nat} (hb : Backed s virt q)
    (l : List (BitVec 8)) {k : Nat}
    (hk : k + l.length ≤ 4096) {m : ByteMem} (hm : ∀ x, ¬ System.InPages [q] x → m x = s.mem x) :
    putBytes (virt + k) l { s with mem := m } = .ok { s with mem := written m (q + k) l } ∧
      ∀ x, ¬ System.InPages [q] x → written m (q + k) l x = s.mem x := by
  induction l generalizing k m with
  | nil =>
    have hnil : written m (q + k) [] = m := by
      funext x
      exact written_of_out (by rw [List.length_nil]; omega)
    rw [hnil]
    exact ⟨rfl, hm⟩
  | cons b l ih =>
    rw [List.length_cons] at hk
    have hstore : ∀ x, ¬ System.InPages [q] x → m.store8 (q + k) b x = s.mem x := by
      intro x hx
      rw [ByteMem.store8, Function.update_of_ne, hm x hx]
      rintro rfl
      exact hx ⟨q, List.mem_singleton_self q, by omega⟩
    have hnext := ih (k := k + 1) (by omega) hstore
    rw [putBytes, hb m hm k (by omega)]
    rw [← Nat.add_assoc, ← Nat.add_assoc, written_cons] at hnext
    exact hnext

namespace Page

/-- Byte `i` of the page, when all of it can be read. -/
def byte (content : List (BitVec 8)) (g : Page) (i : Nat) : BitVec 8 :=
  if i < g.memsetAt then content.getD (g.readPos + i) 0 else 0

theorem memsetAt_le (g : Page) : g.memsetAt ≤ 4096 ∧ g.readCnt ≤ 4096 ∧
    (g.memsetAt = 0 ∨ g.memsetAt = g.readCnt) := by
  rw [memsetAt, readCnt]
  split <;> omega

theorem getD_chunk {content : List (BitVec 8)} {pos size i : Nat} (hi : i < size) :
    (chunk content pos size).getD i 0 = content.getD (pos + i) 0 := by
  rw [chunk, List.getD_eq_getElem?_getD, List.getD_eq_getElem?_getD, List.getElem?_take, if_pos hi,
    List.getElem?_drop]

/-- The page gets its bytes, and nothing else changes. -/
theorem fill_eq (content : List (BitVec 8)) (g : Page) {s : Machine} {q : Nat}
    (hb : Backed s g.virt q) :
    ∃ m, g.fill content s = .ok { s with mem := m } ∧
    (∀ x, ¬ System.InPages [q] x → m x = s.mem x) ∧
      (g.Full content → ∀ i < 4096, m (q + i) = g.byte content i) := by
  obtain ⟨hmemset, hcnt, hcases⟩ := g.memsetAt_le
  have hlen := chunk_length content g.readPos g.readCnt
  obtain ⟨hput, hread⟩ := putBytes_eq hb (chunk content g.readPos g.readCnt) (k := 0) (by omega)
    (m := s.mem) fun _ _ => rfl
  have hput' : putBytes g.virt (chunk content g.readPos g.readCnt) s =
      .ok { s with mem := written s.mem q (chunk content g.readPos g.readCnt) } := hput
  rw [Nat.add_zero] at hread
  rw [fill, hput', ok_bind]
  by_cases hfull : g.Full content
  · obtain ⟨hzero, hout⟩ :=
      putBytes_eq hb (List.replicate (0x1000 - g.memsetAt) 0) (k := g.memsetAt)
      (by rw [List.length_replicate]; omega) hread
    rw [if_pos hfull, hzero]
    refine ⟨_, rfl, hout, fun _ i hi => ?_⟩
    rw [byte]
    split
    · rename_i hlt
      have hfit : i < (chunk content g.readPos g.readCnt).length := by
        rcases hfull with hfull | hfull <;> omega
      rw [written_of_out (Or.inl (by omega)), written_of_mem hfit, getD_chunk (by omega)]
    · have hi' : q + i = q + g.memsetAt + (i - g.memsetAt) := by omega
      rw [hi', written_of_mem (by rw [List.length_replicate]; omega), List.getD_eq_getElem?_getD,
        List.getElem?_replicate]
      split <;> rfl
  · rw [if_neg hfull]
    exact ⟨_, rfl, hread, fun hin => absurd hin hfull⟩

end Page

/-! ## One page -/

namespace System

variable {c : System} {U K : List Block} {held freed free : List Nat} {p : Nat}

/-- A page that was loaded: what is left of the machine, and where its bytes are. -/
structure Loaded (c : System) (U : List Block) (held freed : List Nat) (content : List (BitVec 8))
    (g : Page) (q : Nat) (s' : Machine) : Prop where
  inv : ∃ K', { c with machine := s' }.Inv U K'
  pages : ∃ free', Pages.Inv s' (q :: held) freed free'
  changes : Changes c (fun v => v = g.virt) [q] s'
  fresh : q ∉ held
  frame : q % 4096 = 0
  aligned : g.virt % 4096 = 0
  entry : s'.pages.walk tablePage (c.machine.cr3 / 4096) (dirOf g.virt) (tabOf g.virt) =
    userEntry q (g.phdr.flags &&& 2 ≠ 0)
  bytes : g.Full content → ∀ i < 4096, s'.mem (q + i) = g.byte content i

/-- Where the page can be mapped above kmem, it can be filled. -/
theorem load_loaded (h : c.Inv U K) (hh : Pages.Inv c.machine held freed free)
    (ht : (c.machine.cr3, some p) ∈ c.tasks) (content : List (BitVec 8)) {g : Page}
    (hg : g.virt < userTop) {q : Nat} {s₂ : Machine} (hs : g.map c.machine = .ok (q, s₂))
    (hle : s₂.kmemPhysEnd ≤ s₂.hmemPhysEnd) : ∃ s', g.load content c.machine = .ok s' ∧
      Loaded c U held freed content g q s' ∧ Agree {x | InPages [q] x} s₂ s' := by
  have hmap := hs
  rw [Page.map] at hmap
  obtain ⟨⟨q', s₁⟩, halloc, hmap⟩ := bind_eq_ok.1 hmap
  obtain ⟨s₂', hmapped, hpair⟩ := bind_eq_ok.1 hmap
  obtain ⟨rfl, rfl⟩ := Prod.mk.inj (Except.ok.inj hpair)
  rw [mapError_eq_ok] at halloc
  have hvirt : g.virt % 4096 = 0 := aligned_of_mapPage (mapUserPage_eq_ok.1 hmapped)
  -- the page comes from hmem
  obtain ⟨h₁, hc₁⟩ := hmemAllocPage_changes h hh ht halloc
  obtain ⟨⟨free₁, hh₁⟩, hfresh, hframe, -⟩ := hh.alloc.of_ok halloc
  have ht₁ : (s₁.cr3, some p) ∈ c.tasks := by
    rw [hc₁.cr3]
    exact ht
  obtain ⟨-, -, hqlt⟩ := hh₁.page q' (by simp)
  -- and is mapped
  obtain ⟨K₂, h₂, hc₂, hend₂, hlist₂, hentry⟩ := mapUserPage_changes h₁ ht₁ hg hqlt hmapped
  have hh₂ := hc₂.pagesInv hh₁ h₂ ht₁ hend₂ hlist₂ hle
  have hcr3 : s₂'.cr3 = c.machine.cr3 := hc₂.cr3.trans hc₁.cr3
  dsimp only at hentry
  rw [hc₁.cr3] at hentry
  obtain ⟨hptr, hno⟩ := h.dirPtr ht
  dsimp only at hptr hno
  -- the writes leave the tables alone
  have hset (m : ByteMem) : ({ s₂' with mem := m } : Machine) =
      { s₂' with mem := ({ s₂' with mem := m } : Machine).mem } := rfl
  have hwrite (m : ByteMem) (hm : ∀ x, ¬ InPages [q'] x → m x = s₂'.mem x) :=
    write_changes h₂ hh₂ List.mem_cons_self (hset m) hm
  have hdirs : c.machine.cr3 / 4096 ∈ ({ c with machine := s₂' } : System).dirs := by
    rw [dirs_congr (hc₂.dir.trans hc₁.dir)]
    exact h.mem_dirs ht
  have hkeep (m : ByteMem) (hm : ∀ x, ¬ InPages [q'] x → m x = s₂'.mem x) :
      ({ s₂' with mem := m } : Machine).pages.walk tablePage (c.machine.cr3 / 4096) (dirOf g.virt)
        (tabOf g.virt) = userEntry q' (g.phdr.flags &&& 2 ≠ 0) := by
    obtain ⟨-, -, -, hwalk⟩ := hwrite m hm
    exact (hwalk _ hdirs _ _).trans hentry
  have hbacked : Backed s₂' g.virt q' := by
    intro m hm i hi
    refine translate_of_userEntry ?_ hvirt (Nat.lt_trans hg (by decide)) hframe
      (b := decide (g.phdr.flags &&& 2 ≠ 0)) ?_ hi
    · dsimp only
      rw [hcr3]
      exact hptr
    · dsimp only
      rw [hcr3, hno]
      exact hkeep m hm
  obtain ⟨m, hfill, hm, hbytes⟩ := g.fill_eq content hbacked
  obtain ⟨h₃, hh₃, hc₃, -⟩ := hwrite m hm
  refine ⟨{ s₂' with mem := m }, ?_,
    ⟨⟨K₂, h₃⟩, ⟨free₁, hh₃⟩, ?_, hfresh, hframe, hvirt, hkeep m hm, hbytes⟩,
    rfl, hm⟩
  · rw [Page.load, hs]
    exact hfill
  · refine ((hc₁.trans hc₂).trans hc₃).mono (fun v hv => ?_) fun q hq => hq
    rcases hv with (hv | hv) | hv
    · exact hv.elim
    · exact hv
    · exact hv.elim

/-! ## All pages -/

/-- The pages of a list were loaded, into the pages `new` of hmem, each where it asks for. -/
structure LoadedAll (c : System) (U : List Block) (held freed : List Nat)
    (content : List (BitVec 8))
    (l : List Page) (new : List Nat) (s' : Machine) : Prop where
  inv : ∃ K', { c with machine := s' }.Inv U K'
  pages : ∃ free', Pages.Inv s' (new ++ held) freed free'
  changes : Changes c (fun v => ∃ g ∈ l, v = g.virt) new s'
  entries : ∀ g ∈ l, g.virt % 4096 = 0 ∧ ∃ q ∈ new, q ∉ held ∧ q % 4096 = 0 ∧
    s'.pages.walk tablePage (c.machine.cr3 / 4096) (dirOf g.virt) (tabOf g.virt) =
      userEntry q (g.phdr.flags &&& 2 ≠ 0) ∧
    (g.Full content → ∀ i < 4096, s'.mem (q + i) = g.byte content i)

/-- Pages of hmem that are allocated do not overlap. -/
theorem not_inPages {s : Machine} (hh : Pages.Inv s held freed free) {q : Nat}
    (hq : q ∈ free ++ held) {l : List Nat} (hl : ∀ a ∈ l, a ∈ free ++ held) (hne : q ∉ l) {i : Nat}
    (hi : i < 4096) : ¬ InPages l (q + i) := by
  rintro ⟨a, ha, hlo, hhi⟩
  have hmod := (hh.page q hq).1
  have hmod' := (hh.page a (hl a ha)).1
  have heq : q = a := by omega
  exact hne (heq ▸ ha)

theorem Loaded.cons (h : c.Inv U K) (ht : (c.machine.cr3, some p) ∈ c.tasks)
    {content : List (BitVec 8)} {g : Page} {q : Nat} {s₁ s' : Machine}
    (hg : Loaded c U held freed content g q s₁) (hlt : g.virt < userTop) {l : List Page}
    (hother : g.virt ∉ l.map Page.virt) {new : List Nat}
    (hl : LoadedAll { c with machine := s₁ } U (q :: held) freed content l new s') :
    LoadedAll c U held freed content (g :: l) (new ++ [q]) s' := by
  obtain ⟨free', hh'⟩ := hl.pages
  obtain ⟨K₁, h₁⟩ := hg.inv
  have hc₁ := hg.changes
  have hc := hl.changes
  refine ⟨hl.inv, ⟨free', ?_⟩, ?_, fun g₁ hg₁ => ?_⟩
  · rw [List.append_assoc]
    exact hh'
  · refine (hc₁.trans hc).mono (fun v hv => ?_) fun a ha => ?_
    · rcases hv with rfl | ⟨g', hg', rfl⟩
      · exact ⟨g, List.mem_cons_self, rfl⟩
      · exact ⟨g', List.mem_cons_of_mem g hg', rfl⟩
    · simpa [or_comm] using ha
  · rcases List.mem_cons.1 hg₁ with rfl | hg₁
    · -- the first page, which no other one replaces
      have hdirs : c.machine.cr3 / 4096 ∈ ({ c with machine := s₁ } : System).dirs := by
        rw [dirs_congr hc₁.dir]
        exact h.mem_dirs ht
      have hnot : ¬ ∃ g' ∈ l, g₁.virt = g'.virt := by
        rintro ⟨g', hg', heq⟩
        exact hother (heq ▸ List.mem_map_of_mem hg')
      obtain ⟨hnew, hscratch⟩ := h₁.user_address s' hlt
      have hlt' : g₁.virt < 2 ^ 32 := Nat.lt_trans hlt (by decide)
      refine ⟨hg.aligned, q, List.mem_append_right _ (List.mem_singleton_self q),
        hg.fresh, hg.frame, ?_, fun hfull i hi => ?_⟩
      · rw [hc.walk _ hdirs _ hg.aligned hlt' hnot hnew hscratch]
        exact hg.entry
      · have hin : q ∈ free' ++ (new ++ q :: held) := by simp
        have hapart : ¬ InPages new (q + i) := by
          refine not_inPages hh' hin (fun a ha => by simp [ha]) ?_ hi
          have hnodup := (List.nodup_append.1 hh'.nodup).2.1
          exact fun hmem => (List.nodup_append.1 hnodup).2.2 q hmem q List.mem_cons_self rfl
        have hlo := (hh'.page q hin).2.1
        have hle := hh'.le
        rw [hc.mem (q + i) (by omega) hapart]
        exact hg.bytes hfull i hi
    · -- a page of the rest
      obtain ⟨hmod, q', hq', hfresh, hframe, hentry, hbytes⟩ := hl.entries g₁ hg₁
      dsimp only at hentry
      rw [hc₁.cr3] at hentry
      exact ⟨hmod, q', List.mem_append_left _ hq', fun hin =>
        hfresh (List.mem_cons_of_mem q hin), hframe,
        hentry, hbytes⟩

/-! ## The bytes do not matter -/

theorem Inv.spares (h : c.Inv U K) (hh : Pages.Inv c.machine held freed free) {pd : Nat}
    (hptr : PagePtr pd)
    (hpd : pageNo pd ∈ c.dirs) : Spares {x | InPages held x} pd := by
  intro d hd i hi
  have hbelow := h.below (Or.inl (PageMem.refs_dir hpd))
  have hle := hh.le
  rw [hptr.fromKmem_add (by omega)]
  rintro ⟨q, hq, hlo, -⟩
  have := (hh.page q (List.mem_append_right free hq)).2.1
  omega

theorem map_related (h : c.Inv U K) (hh : Pages.Inv c.machine held freed free)
    (ht : (c.machine.cr3, some p) ∈ c.tasks) {t : Machine} {g : Page} (hg : g.virt < 2 ^ 32)
    (hagree : Agree {x | InPages held x} c.machine t) :
    Related (fun r r' => r.1 = r'.1 ∧ Agree {x | InPages held x} r.2 r'.2) (g.map c.machine)
    (g.map t) := by
  obtain ⟨hptr, hno⟩ := h.dirPtr ht
  dsimp only at hptr hno
  have hdir := h.mem_dirs ht
  rw [← hno] at hdir
  have hfpd := h.spares hh h.paged.first.1 h.paged.first.2
  have hcr3 := h.spares hh hptr hdir
  have hbeside : Beside {x | InPages held x} c.machine.firstPageDirectory c.machine t :=
    ⟨hagree, rfl⟩
  have hlist : c.machine.hmemPhysList ≠ 0 → ∀ i < 4, hmemFrame c.machine.hmemPhysList + i ∉
      {x | InPages held x} := by
    intro hne i hi
    obtain ⟨free', hfree, -⟩ := hh.chain.eq_cons hne
    have hin : c.machine.hmemPhysList ∈ free := by
      rw [hfree]
      exact List.mem_cons_self
    rw [Pages.hmemFrame_eq (hh.page _ (List.mem_append_left held hin)).1]
    refine not_inPages hh (List.mem_append_left held hin)
      (fun a ha => List.mem_append_right free ha) ?_
      (by omega)
    exact fun hmem => (List.nodup_append.1 hh.nodup).2.2 _ hin _ hmem rfl
  rw [Page.map, Page.map]
  have halloc := (hbeside.hmemAllocPage hcr3 hlist).mapError Halt.memory
  cases hs : c.machine.hmemAllocPage with
  | error e =>
    rw [hs] at halloc
    rw [halloc.of_error rfl]
    exact Related.error _
  | ok r =>
    obtain ⟨q, s₁⟩ := r
    obtain ⟨-, hc₁⟩ := hmemAllocPage_changes h hh ht hs
    rw [hs] at halloc
    obtain ⟨⟨q', t₁⟩, ht₁, hq, hagree₁⟩ := halloc.of_ok rfl
    dsimp only at hq hagree₁
    subst hq
    have hok : (Except.ok (q, s₁) : Except Fault (Nat × Machine)).mapError Halt.memory =
        .ok (q, s₁) := rfl
    rw [ht₁, hok, ok_bind, ok_bind]
    have hcr3₁ : t₁.cr3 = s₁.cr3 := hagree₁.cr3
    have hcr3' := hcr3
    rw [← hc₁.cr3] at hcr3'
    have hmap := (hagree₁.mapPage (kmemAllocFuel_blind hfpd 2 .k4) hcr3' hg (prwr ||| user)
      (userEntry q (g.phdr.flags &&& 2 ≠ 0))).mapError Halt.memory
    dsimp only
    rw [mapUserPage, mapUserPage, hcr3₁, ← userEntry]
    exact hmap.bind fun s₂ t₂ h₂ => Related.pure ⟨rfl, h₂.toAgree⟩

/-- Loading the pages ends as mapping them does, and the bytes of the file are there. -/
theorem loadPages_related (h : c.Inv U K) (hh : Pages.Inv c.machine held freed free)
    (ht : (c.machine.cr3, some p) ∈ c.tasks) (content : List (BitVec 8)) {l : List Page}
    (hl : ∀ g ∈ l, g.virt < userTop) (hnodup : (l.map Page.virt).Nodup) {t : Machine}
    (hagree : Agree {x | InPages held x} c.machine t)
    (hclear : Clear l t) :
    Related (fun s' t' => ∃ new, LoadedAll c U held freed content l new s' ∧
        Agree {x | InPages (new ++ held) x} s' t')
      (loadPages content l c.machine) (mapPages l t) := by
  induction l generalizing c K held free t with
  | nil =>
    refine ⟨[], ⟨⟨K, h⟩, ⟨free, hh⟩, .refl c, ?_⟩, hagree⟩
    intro g hg
    cases hg
  | cons g l ih =>
    have hg := hl g List.mem_cons_self
    obtain ⟨hother, hnodup⟩ := List.nodup_cons.1 hnodup
    have hrest : loadPages content (g :: l) c.machine =
        g.load content c.machine >>= loadPages content l :=
      List.foldlM_cons
    have hlt : g.virt < 2 ^ 32 := Nat.lt_trans hg (by decide)
    have hmap := map_related h hh ht hlt hagree
    rw [hrest, mapPages]
    cases hs : g.map c.machine with
    | error e =>
      rw [hmap.of_error hs, Page.load, hs]
      exact Related.error e
    | ok r =>
      obtain ⟨q, s₂⟩ := r
      obtain ⟨⟨q', t₂⟩, ht₂, hq, hagree₂⟩ := hmap.of_ok hs
      dsimp only at hq hagree₂
      subst hq
      obtain ⟨hle, hclear₂⟩ := hclear q t₂ ht₂
      rw [hagree₂.kmemPhysEnd, hagree₂.hmemPhysEnd] at hle
      obtain ⟨s₁, hload, hloaded, hwritten⟩ := load_loaded h hh ht content hg hs hle
      rw [hload, ht₂, ok_bind, ok_bind]
      obtain ⟨K₁, h₁⟩ := hloaded.inv
      obtain ⟨free₁, hh₁⟩ := hloaded.pages
      have ht₁ : (s₁.cr3, some p) ∈ c.tasks := by
        rw [hloaded.changes.cr3]
        exact ht
      have hagree₁ : Agree {x | InPages (q :: held) x} s₁ t₂ := by
        refine (hwritten.symm.mono ?_).trans (hagree₂.mono ?_)
        · rintro x ⟨a, ha, hin⟩
          exact ⟨a, by simp [List.mem_singleton.1 ha], hin⟩
        · rintro x ⟨a, ha, hin⟩
          exact ⟨a, List.mem_cons_of_mem q ha, hin⟩
      refine (ih h₁ hh₁ ht₁ (fun g' hg' => hl g' (List.mem_cons_of_mem g hg')) hnodup hagree₁
        hclear₂).mono ?_
      rintro s' t' ⟨new, hall, hagree'⟩
      refine ⟨new ++ [q], hloaded.cons h ht hg hother hall, ?_⟩
      rw [List.append_assoc]
      exact hagree'

end System

end TinyLittleOs.Scheduler
