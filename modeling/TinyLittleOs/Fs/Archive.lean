import TinyLittleOs.Fs.Tar

/-!
# Well-formed archives

An archive is a list of entries, a header and padded contents each, and a block without the
magic. The scans of `tar.cpp` find the first entry of a file name, and number the names and
their directories without gaps.
-/

namespace TinyLittleOs.Fs

open Lib

structure Entry where
  name : Str
  size : Nat
  deriving DecidableEq

/-- The header of an entry and its padded contents. -/
def Entry.room (e : Entry) : Nat := 512 + (e.size + 511) / 512 * 512

/-- The entries of `u` take so many bytes. -/
def space (u : List Entry) : Nat := (u.map Entry.room).sum

theorem space_append (u v : List Entry) : space (u ++ v) = space u + space v := by
  simp [space]

theorem space_cons (e : Entry) (u : List Entry) : space (e :: u) = e.room + space u := by
  simp [space]

/-- An entry takes one inode number for its name, and one for each slash. -/
def Entry.numbers (e : Entry) : Nat := e.name.count slash + 1

/-- The entries of `u` take so many inode numbers. -/
def numbers (u : List Entry) : Nat := (u.map Entry.numbers).sum

/-- The header of an entry. -/
structure HeaderAt (m : ByteMem) (p : Nat) (e : Entry) : Prop where
  name : HasBytes m p e.name
  nul : m (p + e.name.length) = 0
  length_le : e.name.length ≤ 99
  no_nul : (0 : BitVec 8) ∉ e.name
  /-- The size, as 11 octal digits. -/
  size : ∀ i < 11, (m (p + 0x7c + i)).toNat = 0x30 + e.size / 8 ^ (10 - i) % 8
  size_lt : e.size < 8 ^ 11
  magic : HasBytes m (p + 257) ustar

/-- The entries from `p` on. -/
def ArchiveAt (m : ByteMem) : Nat → List Entry → Prop
  | p, [] => ¬ HasBytes m (p + 257) ustar
  | p, e :: es => HeaderAt m p e ∧ ArchiveAt m (p + e.room) es

/-- A well-formed archive at `p`. -/
structure Archive (m : ByteMem) (p : Nat) (es : List Entry) : Prop where
  entries : ArchiveAt m p es
  size_lt : space es + 512 < 2 ^ 32

theorem numbers_cons (e : Entry) (u : List Entry) : numbers (e :: u) = e.numbers + numbers u := by
  simp [numbers]

/-- The entry is named `f`, or lies in the directory `f`. -/
def Names (f : Str) (e : Entry) : Prop := e.name = f ∨ f ++ [slash] <+: e.name

instance (f : Str) (e : Entry) : Decidable (Names f e) :=
  inferInstanceAs (Decidable (e.name = f ∨ f ++ [slash] <+: e.name))

/-! ## Headers -/

section Header

variable {m : ByteMem} {p : Nat} {e : Entry} (h : HeaderAt m p e)
include h

theorem HeaderAt.parseOct {r : Nat} (hr : r ≤ 11) :
    Tar.parseOct m (p + 0x7c + (11 - r)) r (BitVec.ofNat 32 (e.size / 8 ^ r)) =
      BitVec.ofNat 32 e.size := by
  induction r with
  | zero => simp [Tar.parseOct]
  | succ r ih =>
    have hdigit := h.size (10 - r) (by omega)
    rw [(by omega : 10 - (10 - r) = r)] at hdigit
    rw [Tar.parseOct, (by omega : p + 0x7c + (11 - (r + 1)) = p + 0x7c + (10 - r)),
      (by omega : p + 0x7c + (10 - r) + 1 = p + 0x7c + (11 - r)), ← ih (by omega)]
    congr 1
    have hdiv : e.size / 8 ^ (r + 1) = e.size / 8 ^ r / 8 := by
      rw [Nat.pow_succ, Nat.div_div_eq_div_mul]
    apply BitVec.eq_of_toNat_eq
    rw [BitVec.toNat_add, BitVec.toNat_shiftLeft, BitVec.toNat_sub, BitVec.toNat_setWidth, hdigit,
      BitVec.toNat_ofNat, BitVec.toNat_ofNat, BitVec.toNat_ofNat, hdiv, Nat.shiftLeft_eq]
    omega

theorem HeaderAt.filesize : Tar.filesize m p = BitVec.ofNat 32 e.size := by
  have hparse := h.parseOct (Nat.le_refl 11)
  rwa [Nat.div_eq_of_lt h.size_lt] at hparse

theorem HeaderAt.nextHeader (hroom : e.room < 2 ^ 32) : Tar.nextHeader m p = p + e.room := by
  rw [Entry.room] at hroom
  have hsize : e.size + 511 < 2 ^ 32 := by omega
  rw [Tar.nextHeader, h.filesize, Entry.room]
  congr 1
  have h511 : (511 : BitVec 32).toNat = 511 := rfl
  have h512 : (512 : BitVec 32).toNat = 512 := rfl
  have h1 : (1 : BitVec 32).toNat = 1 := rfl
  rw [BitVec.toNat_mul, BitVec.toNat_add, BitVec.toNat_udiv, BitVec.toNat_add, BitVec.toNat_ofNat,
    h511, h512, h1]
  omega

/-- The comparison of `tar_lookup` finds the entries of a name. -/
theorem HeaderAt.match_iff {f : Str} (h0 : (0 : BitVec 8) ∉ f) :
    memcmp m p f = 0 ∧ (m (p + f.length) = 0 ∨ m (p + f.length) = slash) ↔ Names f e := by
  rw [memcmp_eq_zero]
  constructor
  · rintro ⟨hf, hlast⟩
    obtain ⟨t, ht⟩ := hf.prefix_of_nul h.name h.nul h0
    have hname := h.name
    rw [← ht, hasBytes_append] at hname
    cases t with
    | nil => exact .inl (by simpa using ht.symm)
    | cons c t =>
      have hc := (hasBytes_cons.1 hname.2).1
      have hc0 : c ≠ 0 := fun he => h.no_nul (by simp [← ht, he])
      rw [hc] at hlast
      obtain rfl := hlast.resolve_left hc0
      exact .inr ⟨t, by simpa using ht⟩
  · rintro (rfl | ⟨t, ht⟩)
    · exact ⟨h.name, .inl h.nul⟩
    · have hname := h.name
      rw [← ht, hasBytes_append, hasBytes_append] at hname
      exact ⟨hname.1.1, .inr (hasBytes_cons.1 hname.1.2).1⟩

/-- The byte behind the name tells a file from a directory. -/
theorem HeaderAt.last_iff {f : Str} (hf : Names f e) : m (p + f.length) = 0 ↔ e.name = f := by
  rcases hf with rfl | ⟨t, ht⟩
  · exact iff_of_true h.nul rfl
  · have hname := h.name
    rw [← ht, hasBytes_append, hasBytes_append] at hname
    refine iff_of_false (fun he => ?_) fun he => ?_
    · rw [(hasBytes_cons.1 hname.1.2).1] at he
      exact absurd he (by decide)
    · rw [he] at ht
      have hlen := congrArg List.length ht
      simp at hlen

end Header

/-! ## The numbering -/

/-- The number after one more byte. -/
theorem count_step (c : BitVec 8) (s : Str) (i : BitVec 32) :
    (if c = slash then i + 1 else i) + BitVec.ofNat 32 (s.count slash) =
      i + BitVec.ofNat 32 ((c :: s).count slash) := by
  rw [List.count_cons]
  by_cases hc : c = slash
  · rw [if_pos hc, if_pos (by simp [hc]), BitVec.ofNat_add, BitVec.add_assoc]
    exact congrArg (i + ·) (BitVec.add_comm _ _)
  · rw [if_neg hc, if_neg (by simpa using hc), Nat.add_zero]

theorem foldl_slashes (s : Str) (i : BitVec 32) :
    s.foldl (fun i c => if c = slash then i + 1 else i) i = i + BitVec.ofNat 32
    (s.count slash) := by
  induction s generalizing i with
  | nil => simp
  | cons c s ih => rw [List.foldl_cons, ih, count_step]

theorem skipName_spec {m : ByteMem} {p fuel : Nat} {s : Str} {i : BitVec 32} (hs : HasBytes m p s)
    (hend : m (p + s.length) = 0) (h0 : (0 : BitVec 8) ∉ s) (hf : s.length < fuel) :
    Tar.skipName m fuel p i = some (i + BitVec.ofNat 32 (s.count slash)) := by
  induction s generalizing p i fuel with
  | nil =>
    obtain ⟨fuel, rfl⟩ : ∃ f, fuel = f + 1 := ⟨fuel - 1, by omega⟩
    rw [Tar.skipName, if_pos (by simpa using hend)]
    simp
  | cons c s ih =>
    obtain ⟨fuel, rfl⟩ : ∃ f, fuel = f + 1 := ⟨fuel - 1, by omega⟩
    obtain ⟨hc, hs⟩ := hasBytes_cons.1 hs
    have hc0 : c ≠ 0 := fun he => h0 (by simp [he])
    rw [List.length_cons, (by omega : p + (s.length + 1) = p + 1 + s.length)] at hend
    rw [Tar.skipName, hc, if_neg hc0, ih hs hend (fun hm => h0 (List.mem_cons_of_mem c hm))
      (by rw [List.length_cons] at hf; omega), count_step]

/-! ## Lookup by name -/

/-- The first entry of a name is `e`, after the entries `u`. -/
structure First (f : Str) (es u : List Entry) (e : Entry) : Prop where
  split : ∃ v, es = u ++ e :: v
  names : Names f e
  others : ∀ x ∈ u, ¬ Names f x

theorem exists_first {f : Str} {es : List Entry} (h : ∃ e ∈ es, Names f e) :
    ∃ u e, First f es u e := by
  induction es with
  | nil => simp at h
  | cons x es ih =>
    by_cases hx : Names f x
    · exact ⟨[], x, ⟨es, rfl⟩, hx, by simp⟩
    · obtain ⟨e, he, hnames⟩ := h
      have hes : e ∈ es := (List.mem_cons.1 he).resolve_left fun heq => hx (heq ▸ hnames)
      obtain ⟨u, e', ⟨v, rfl⟩, hnames', hothers⟩ := ih ⟨e, hes, hnames⟩
      exact ⟨x :: u, e', ⟨v, rfl⟩, hnames', List.forall_mem_cons.2 ⟨hx, hothers⟩⟩

/-- What `tar_lookup` finds at entry `e` behind `u`. -/
def foundAt (f : Str) (p : Nat) (i : BitVec 32) (u : List Entry) (e : Entry) : Tar.Found where
  inode := i + BitVec.ofNat 32 (numbers u + f.count slash)
  content := p + space u + 512
  fileLen := BitVec.ofNat 32 (if e.name = f then e.size else 0)

section Lookup

variable {m : ByteMem} {f : Str} (h0 : (0 : BitVec 8) ∉ f)
include h0

/-- The loop passes an entry of another name. -/
theorem lookupLoop_skip {p fuel : Nat} {e : Entry} (h : HeaderAt m p e) (hroom : e.room < 2 ^ 32)
    (hnot : ¬ Names f e) (hf : 100 ≤ fuel) (i : BitVec 32) :
    Tar.lookupLoop m f (fuel + 1) p i =
      Tar.lookupLoop m f fuel (p + e.room) (i + BitVec.ofNat 32 e.numbers) := by
  have hlen := h.length_le
  have hnumber : i + BitVec.ofNat 32 (e.name.count slash) + 1 = i + BitVec.ofNat 32 e.numbers := by
    rw [Entry.numbers, BitVec.ofNat_add, BitVec.add_assoc]
    rfl
  rw [Tar.lookupLoop, if_pos (memcmp_eq_zero.2 h.magic)]
  dsimp only
  rw [if_neg fun he => hnot ((h.match_iff h0).1 he), h.nextHeader hroom,
    skipName_spec h.name h.nul h.no_nul (by omega), Option.bind_some, hnumber]

theorem lookupLoop_first {es u : List Entry} {e : Entry} (hfirst : First f es u e) {p : Nat}
    (h : ArchiveAt m p es) (hspace : space es < 2 ^ 32) {fuel : Nat} (hf : es.length + 101 ≤ fuel)
    (i : BitVec 32) : Tar.lookupLoop m f fuel p i = some (.ok (foundAt f p i u e)) := by
  obtain ⟨⟨v, rfl⟩, hnames, hothers⟩ := hfirst
  induction u generalizing p fuel i with
  | nil =>
    obtain ⟨fuel, rfl⟩ : ∃ f, fuel = f + 1 := ⟨fuel - 1, by omega⟩
    obtain ⟨hhead, -⟩ := h
    rw [Tar.lookupLoop, if_pos (memcmp_eq_zero.2 hhead.magic)]
    dsimp only
    rw [if_pos ((hhead.match_iff h0).2 hnames), foldl_slashes, hhead.filesize, foundAt]
    congr 3
    · simp [numbers]
    · simp only [hhead.last_iff hnames]
      split_ifs <;> rfl
  | cons x u ih =>
    obtain ⟨fuel, rfl⟩ : ∃ f, fuel = f + 1 := ⟨fuel - 1, by omega⟩
    obtain ⟨hhead, htail⟩ := h
    rw [List.cons_append, space_cons] at hspace
    rw [List.cons_append, List.length_cons] at hf
    rw [lookupLoop_skip h0 hhead (by omega) (hothers x List.mem_cons_self) (by omega),
      ih _ (fun y hy => hothers y (List.mem_cons_of_mem x hy)) htail (by omega) (by omega)]
    rw [foundAt, foundAt, numbers_cons, space_cons, Nat.add_assoc x.numbers,
      BitVec.ofNat_add x.numbers, ← BitVec.add_assoc, ← Nat.add_assoc p]

theorem lookupLoop_none {es : List Entry} (hnone : ∀ e ∈ es, ¬ Names f e) {p : Nat}
    (h : ArchiveAt m p es) (hspace : space es < 2 ^ 32) {fuel : Nat} (hf : es.length + 101 ≤ fuel)
    (i : BitVec 32) : Tar.lookupLoop m f fuel p i = some (.error .noEntry) := by
  induction es generalizing p fuel i with
  | nil =>
    obtain ⟨fuel, rfl⟩ : ∃ f, fuel = f + 1 := ⟨fuel - 1, by omega⟩
    exact if_neg fun he => h (memcmp_eq_zero.1 he)
  | cons e es ih =>
    obtain ⟨fuel, rfl⟩ : ∃ f, fuel = f + 1 := ⟨fuel - 1, by omega⟩
    obtain ⟨hhead, htail⟩ := h
    rw [space_cons] at hspace
    rw [List.length_cons] at hf
    rw [lookupLoop_skip h0 hhead (by omega) (hnone e List.mem_cons_self) (by omega)]
    exact ih (fun x hx => hnone x (List.mem_cons_of_mem e hx)) htail (by omega) (by omega) _

variable {a : Nat} {es : List Entry} (h : Archive m a es) (hlen : f.length ≤ 99)
include h hlen

theorem tarLookup_first {u : List Entry} {e : Entry} (hfirst : First f es u e) {fuel : Nat}
    (hf : es.length + 101 ≤ fuel) :
    Tar.tarLookup m a f fuel = some (.ok (foundAt f a 3 u e)) := by
  have hsize := h.size_lt
  rw [Tar.tarLookup, if_neg (by omega)]
  exact lookupLoop_first h0 hfirst h.entries (by omega) hf 3

theorem tarLookup_none (hnone : ∀ e ∈ es, ¬ Names f e) {fuel : Nat} (hf : es.length + 101 ≤ fuel) :
    Tar.tarLookup m a f fuel = some (.error .noEntry) := by
  have hsize := h.size_lt
  rw [Tar.tarLookup, if_neg (by omega)]
  exact lookupLoop_none h0 hnone h.entries (by omega) hf 3

omit h0 hlen in
theorem size_lt {u : List Entry} {e : Entry} (hfirst : First f es u e) : e.size < 2 ^ 32 := by
  obtain ⟨v, rfl⟩ := hfirst.split
  have hsize := h.size_lt
  rw [space_append, space_cons, Entry.room] at hsize
  omega

end Lookup

/-- An archive with one file, `a/b` of five bytes. -/
def oneFile : ByteMem := fun x =>
  if x < 3 then [0x61, 0x2F, 0x62].getD x 0
  else if 0x7c ≤ x ∧ x < 0x7c + 10 then 0x30
  else if x = 0x7c + 10 then 0x35
  else if 257 ≤ x then ustar.getD (x - 257) 0
  else 0

theorem oneFile_archive : Archive oneFile 0 [⟨[0x61, 0x2F, 0x62], 5⟩] where
  entries :=
    ⟨{ name := by
        unfold HasBytes
        decide
       nul := by decide
       length_le := by decide
       no_nul := by decide
       size := by decide
       size_lt := by decide
       magic := by
        unfold HasBytes
        decide }, by
        unfold ArchiveAt HasBytes
        decide⟩
  size_lt := by decide

/-- `tar_lookup` finds the first entry of a file or directory name. -/
theorem tarLookup_spec {m : ByteMem} {a : Nat} {es : List Entry} (h : Archive m a es) {f : Str}
    (h0 : (0 : BitVec 8) ∉ f) (hlen : f.length ≤ 99) :
    ∃ fuel₀ r, (∀ fuel ≥ fuel₀, Tar.tarLookup m a f fuel = some r) ∧
      ((∃ c, r = .ok c) ↔ ∃ e ∈ es, Names f e) ∧
      (∀ c, r = .ok c → ∃ u e, First f es u e ∧ c.content = a + space u + 512 ∧
        c.fileLen.toNat = if e.name = f then e.size else 0) ∧
      (∀ err, r = .error err → err = .noEntry) := by
  by_cases hsome : ∃ e ∈ es, Names f e
  · obtain ⟨u, e, hfirst⟩ := exists_first hsome
    have hlt := size_lt h hfirst
    refine ⟨_, _, fun fuel hf => tarLookup_first h0 h hlen hfirst hf,
      iff_of_true ⟨_, rfl⟩ hsome, ?_,
      by simp⟩
    rintro c hc
    obtain rfl := Except.ok.inj hc
    refine ⟨u, e, hfirst, rfl, ?_⟩
    rw [foundAt, BitVec.toNat_ofNat]
    split_ifs
    · exact Nat.mod_eq_of_lt hlt
    · rfl
  · have hnone : ∀ e ∈ es, ¬ Names f e := fun e he hnames => hsome ⟨e, he, hnames⟩
    exact ⟨_, _, fun fuel hf => tarLookup_none h0 h hlen hnone hf, iff_of_false (by simp) hsome,
      by simp, by simp⟩

theorem tarLookup_spec_oneFile :
    ∃ fuel c, Tar.tarLookup oneFile 0 [0x61] fuel = some (.ok c) ∧ c.fileLen.toNat = 0 := by
  obtain ⟨fuel, r, hr, hok, hfound, -⟩ := tarLookup_spec oneFile_archive (f := [0x61]) (by decide)
    (by decide)
  obtain ⟨c, rfl⟩ := hok.2 ⟨_, List.mem_singleton_self _, by decide⟩
  obtain ⟨u, e, hfirst, -, hlen⟩ := hfound c rfl
  refine ⟨fuel, c, hr fuel (Nat.le_refl _), hlen.trans (if_neg ?_)⟩
  obtain ⟨v, hv⟩ := hfirst.split
  have he : e ∈ [⟨[0x61, 0x2F, 0x62], 5⟩] := by
    rw [hv]
    simp
  rw [List.mem_singleton.1 he]
  decide

/-! ## Lookup by number -/

theorem numbers_le_space (u : List Entry) (h : ∀ e ∈ u, e.name.length ≤ 99) :
    numbers u ≤ space u := by
  induction u with
  | nil => exact Nat.le_refl _
  | cons e u ih =>
    have hlen := h e List.mem_cons_self
    have hcount : e.name.count slash ≤ e.name.length := List.count_le_length
    have hu := ih fun x hx => h x (List.mem_cons_of_mem e hx)
    rw [numbers_cons, space_cons, Entry.numbers, Entry.room]
    omega

section ByIndex

variable {m : ByteMem}

theorem ofNat_slash_step (c : Nat) (x : BitVec 8) :
    (if x = slash then BitVec.ofNat 32 c + 1 else BitVec.ofNat 32 c) =
      BitVec.ofNat 32 (c + if x = slash then 1 else 0) := by
  split_ifs
  · rw [BitVec.ofNat_add]
    rfl
  · rfl

theorem count_cons_slash (x : BitVec 8) (s : Str) :
    (x :: s).count slash = (if x = slash then 1 else 0) + s.count slash := by
  rw [List.count_cons, Nat.add_comm]
  simp

theorem ofNat_ne {c n : Nat} (hn : n < 2 ^ 32) (hc : c < n) :
    BitVec.ofNat 32 c ≠ BitVec.ofNat 32 n := by
  intro he
  have htoNat := congrArg BitVec.toNat he
  rw [BitVec.toNat_ofNat, BitVec.toNat_ofNat, Nat.mod_eq_of_lt hn,
    Nat.mod_eq_of_lt (by omega)] at htoNat
  omega

/-- The numbers of a name are passed when the wanted number is behind them. -/
theorem scanName_passed {n : Nat} (hn : n < 2 ^ 32) {p fuel c : Nat} {s : Str} (hs : HasBytes m p s)
    (hend : m (p + s.length) = 0) (h0 : (0 : BitVec 8) ∉ s) (hf : s.length < fuel)
    (hc : c + s.count slash < n) :
    Tar.scanName m (BitVec.ofNat 32 n) fuel p (BitVec.ofNat 32 c) =
      some (.inr (BitVec.ofNat 32 (c + s.count slash))) := by
  induction s generalizing p fuel c with
  | nil =>
    obtain ⟨fuel, rfl⟩ : ∃ f, fuel = f + 1 := ⟨fuel - 1, by omega⟩
    rw [Tar.scanName, if_pos (by simpa using hend)]
    simp
  | cons x s ih =>
    obtain ⟨fuel, rfl⟩ : ∃ f, fuel = f + 1 := ⟨fuel - 1, by omega⟩
    obtain ⟨hx, hs⟩ := hasBytes_cons.1 hs
    have hx0 : x ≠ 0 := fun he => h0 (by simp [he])
    rw [List.length_cons, (by omega : p + (s.length + 1) = p + 1 + s.length)] at hend
    rw [count_cons_slash, ← Nat.add_assoc] at hc ⊢
    rw [List.length_cons] at hf
    rw [Tar.scanName, hx, if_neg hx0, if_neg (ofNat_ne hn (by omega)), ofNat_slash_step]
    exact ih hs hend (fun hm => h0 (List.mem_cons_of_mem x hm)) (by omega) hc

theorem skipComponent_spec {p fuel : Nat} {s : Str} (hs : HasBytes m p s)
    (hend : m (p + s.length) = 0 ∨ m (p + s.length) = slash) (h0 : (0 : BitVec 8) ∉ s)
    (hslash : slash ∉ s) (hf : s.length < fuel) :
    Tar.skipComponent m fuel p = some (p + s.length) := by
  induction s generalizing p fuel with
  | nil =>
    obtain ⟨fuel, rfl⟩ : ∃ f, fuel = f + 1 := ⟨fuel - 1, by omega⟩
    rw [Tar.skipComponent, if_neg]
    · rfl
    · rintro ⟨hne, hne'⟩
      exact hend.elim hne hne'
  | cons x s ih =>
    obtain ⟨fuel, rfl⟩ : ∃ f, fuel = f + 1 := ⟨fuel - 1, by omega⟩
    obtain ⟨hx, hs⟩ := hasBytes_cons.1 hs
    have hx0 : x ≠ 0 ∧ x ≠ slash := ⟨fun he => h0 (by simp [he]), fun he => hslash (by simp [he])⟩
    have hlen : p + (x :: s).length = p + 1 + s.length := by
      rw [List.length_cons]
      omega
    rw [hlen] at hend ⊢
    rw [List.length_cons] at hf
    rw [Tar.skipComponent, hx, if_pos hx0]
    exact ih hs hend (fun hm => h0 (List.mem_cons_of_mem x hm))
      (fun hm => hslash (List.mem_cons_of_mem x hm)) (by omega)

/-- The scan ends where the name `s` does, when the wanted number is that of its last component. -/
theorem scanName_found {n : Nat} (hn : n < 2 ^ 32) {p fuel c : Nat} {s : Str} (hs : HasBytes m p s)
    (hne : s ≠ []) (hlast : s.getLast? ≠ some slash)
    (hend : m (p + s.length) = 0 ∨ m (p + s.length) = slash) (h0 : (0 : BitVec 8) ∉ s)
    (hf : s.length + 1 < fuel) (hc : c + s.count slash = n) :
    Tar.scanName m (BitVec.ofNat 32 n) fuel p (BitVec.ofNat 32 c) = some (.inl (p + s.length)) := by
  induction s generalizing p fuel c with
  | nil => exact absurd rfl hne
  | cons x s ih =>
    obtain ⟨fuel, rfl⟩ : ∃ f, fuel = f + 1 := ⟨fuel - 1, by omega⟩
    have hx := (hasBytes_cons.1 hs).1
    have hx0 : x ≠ 0 := fun he => h0 (by simp [he])
    rw [Tar.scanName, hx, if_neg hx0]
    by_cases hcount : (x :: s).count slash = 0
    · rw [hcount, Nat.add_zero] at hc
      rw [if_pos (by rw [hc]),
        skipComponent_spec hs hend h0 (List.count_eq_zero.1 hcount) (by omega)]
      rfl
    · have hne' : s ≠ [] := by
        rintro rfl
        have hxslash : x ≠ slash := by simpa using hlast
        exact hcount (by simp [hxslash])
      have hlast' : s.getLast? ≠ some slash := by
        rwa [List.getLast?_cons_of_ne_nil hne'] at hlast
      have hlen : p + (x :: s).length = p + 1 + s.length := by
        rw [List.length_cons]
        omega
      rw [hlen] at hend ⊢
      rw [List.length_cons] at hf
      rw [if_neg (ofNat_ne hn (by omega)), ofNat_slash_step]
      rw [count_cons_slash, ← Nat.add_assoc] at hc
      exact ih (hasBytes_cons.1 hs).2 hne' hlast' hend (fun hm => h0 (List.mem_cons_of_mem x hm))
        (by omega) hc

theorem Names.length_le {f : Str} {e : Entry} (h : Names f e) : f.length ≤ e.name.length := by
  rcases h with h | h
  · rw [h]
  · have hlen := h.length_le
    rw [List.length_append] at hlen
    omega

theorem Names.count_le {f : Str} {e : Entry} (h : Names f e) : f.count slash < e.numbers := by
  have hle : f.count slash ≤ e.name.count slash := by
    rcases h with h | h
    · rw [h]
    · exact ((List.prefix_append f [slash]).trans h).sublist.count_le slash
  rw [Entry.numbers]
  omega

/-- The number of a name leads to the entry that the name was found at. -/
theorem byIndexLoop_spec {f : Str} (hne : f ≠ []) (hlast : f.getLast? ≠ some slash)
    (h0 : (0 : BitVec 8) ∉ f) {u v : List Entry} {e : Entry} (hnames : Names f e) {n : Nat}
    (hn : n < 2 ^ 32) {p : Nat} (h : ArchiveAt m p (u ++ e :: v))
    (hspace : space (u ++ e :: v) < 2 ^ 32)
    {fuel c : Nat} (hf : (u ++ e :: v).length + 101 ≤ fuel)
    (hc : c + numbers u + f.count slash = n) :
    Tar.byIndexLoop m (BitVec.ofNat 32 n) fuel p (BitVec.ofNat 32 c) =
      some (.ok ⟨f.length, p + space u + 512, BitVec.ofNat 32 e.size⟩) := by
  induction u generalizing p fuel c with
  | nil =>
    obtain ⟨fuel, rfl⟩ : ∃ f, fuel = f + 1 := ⟨fuel - 1, by omega⟩
    obtain ⟨hhead, -⟩ := h
    obtain ⟨hbytes, hend⟩ := (hhead.match_iff h0).2 hnames
    have hlen := hnames.length_le
    have hlen' := hhead.length_le
    rw [List.nil_append, List.length_cons] at hf
    have hc' : c + f.count slash = n := hc
    rw [Tar.byIndexLoop, if_pos (memcmp_eq_zero.2 hhead.magic), scanName_found hn
      (memcmp_eq_zero.1 hbytes) hne hlast hend h0 (by omega) hc', hhead.filesize, Option.bind_some]
    dsimp only
    rw [Nat.add_sub_cancel_left]
    rfl
  | cons x u ih =>
    obtain ⟨fuel, rfl⟩ : ∃ f, fuel = f + 1 := ⟨fuel - 1, by omega⟩
    obtain ⟨hhead, htail⟩ := h
    have hlen := hhead.length_le
    rw [List.cons_append, space_cons] at hspace
    rw [List.cons_append, List.length_cons] at hf
    rw [numbers_cons, Entry.numbers] at hc
    rw [Tar.byIndexLoop, if_pos (memcmp_eq_zero.2 hhead.magic), scanName_passed hn hhead.name
      hhead.nul hhead.no_nul (by omega) (by omega), hhead.nextHeader (by omega), Option.bind_some]
    have hloop := ih htail (by omega) (by omega : (u ++ e :: v).length + 101 ≤ fuel)
      (by omega : c + x.name.count slash + 1 + numbers u + f.count slash = n)
    rw [BitVec.ofNat_add (c + x.name.count slash)] at hloop
    refine hloop.trans ?_
    rw [space_cons, ← Nat.add_assoc p]

end ByIndex

/-! ## Fuel -/

theorem skipName_mono {m : ByteMem} {fuel fuel' : Nat} (hle : fuel ≤ fuel') {p : Nat}
    {i r : BitVec 32}
    (h : Tar.skipName m fuel p i = some r) : Tar.skipName m fuel' p i = some r := by
  induction fuel generalizing p i fuel' with
  | zero => simp [Tar.skipName] at h
  | succ fuel ih =>
    obtain ⟨fuel', rfl⟩ : ∃ f, fuel' = f + 1 := ⟨fuel' - 1, by omega⟩
    rw [Tar.skipName] at h ⊢
    split_ifs at h ⊢
    · exact h
    · exact ih (by omega) h
    · exact ih (by omega) h

theorem lookupLoop_mono {m : ByteMem} {f : Str} {fuel fuel' : Nat} (hle : fuel ≤ fuel') {p : Nat}
    {i : BitVec 32} {r : Except Errno Tar.Found} (h : Tar.lookupLoop m f fuel p i = some r) :
    Tar.lookupLoop m f fuel' p i = some r := by
  induction fuel generalizing p i fuel' with
  | zero => simp [Tar.lookupLoop] at h
  | succ fuel ih =>
    obtain ⟨fuel', rfl⟩ : ∃ f, fuel' = f + 1 := ⟨fuel' - 1, by omega⟩
    rw [Tar.lookupLoop] at h ⊢
    dsimp only at h ⊢
    by_cases hmagic : memcmp m (p + 257) ustar = 0
    · rw [if_pos hmagic] at h ⊢
      by_cases hmatch : memcmp m p f = 0 ∧ (m (p + f.length) = 0 ∨ m (p + f.length) = slash)
      · rw [if_pos hmatch] at h ⊢
        exact h
      · rw [if_neg hmatch, Option.bind_eq_some_iff] at h ⊢
        obtain ⟨j, hj, hrest⟩ := h
        exact ⟨j, skipName_mono (by omega) hj, ih (by omega) hrest⟩
    · rw [if_neg hmagic] at h ⊢
      exact h

theorem tarLookup_mono {m : ByteMem} {a : Nat} {f : Str} {fuel fuel' : Nat} (hle : fuel ≤ fuel')
    {r : Except Errno Tar.Found} (h : Tar.tarLookup m a f fuel = some r) :
    Tar.tarLookup m a f fuel' = some r := by
  rw [Tar.tarLookup] at h ⊢
  split_ifs at h ⊢
  · exact h
  · exact lookupLoop_mono hle h

/-! ## The two scans agree -/

/-- A file or directory name that does not end with a slash. -/
structure Plain (f : Str) : Prop where
  ne_nil : f ≠ []
  no_nul : (0 : BitVec 8) ∉ f
  last : f.getLast? ≠ some slash

section Agree

variable {m : ByteMem} {a : Nat} {es : List Entry} (h : Archive m a es)
include h

/-- What a successful lookup found. -/
theorem Archive.first {f : Str} (h0 : (0 : BitVec 8) ∉ f) {fuel : Nat} {r : Tar.Found}
    (hr : Tar.tarLookup m a f fuel = some (.ok r)) :
    ∃ u e, First f es u e ∧ r = foundAt f a 3 u e := by
  have hlen : f.length ≤ 99 := by
    by_contra hlong
    rw [Tar.tarLookup, if_pos (by omega)] at hr
    simp at hr
  have hmono := tarLookup_mono (Nat.le_max_left fuel (es.length + 101)) hr
  by_cases hsome : ∃ e ∈ es, Names f e
  · obtain ⟨u, e, hfirst⟩ := exists_first hsome
    rw [tarLookup_first h0 h hlen hfirst (Nat.le_max_right _ _)] at hmono
    exact ⟨u, e, hfirst, (Except.ok.inj (Option.some.inj hmono)).symm⟩
  · rw [tarLookup_none h0 h hlen (fun e he hn => hsome ⟨e, he, hn⟩) (Nat.le_max_right _ _)] at hmono
    simp at hmono

omit h in
theorem length_le {p : Nat} (h : ArchiveAt m p es) : ∀ x ∈ es, x.name.length ≤ 99 := by
  induction es generalizing p with
  | nil => simp
  | cons x es ih => exact List.forall_mem_cons.2 ⟨h.1.length_le, ih h.2⟩

/-- The numbers do not wrap. -/
theorem Archive.number_lt {f : Str} {u : List Entry} {e : Entry} (hfirst : First f es u e) :
    3 + numbers u + f.count slash < 2 ^ 32 := by
  obtain ⟨⟨v, rfl⟩, hnames, -⟩ := hfirst
  have hcount := hnames.count_le
  have hsize := h.size_lt
  have hle := numbers_le_space _ (length_le h.entries)
  have hsum : numbers (u ++ e :: v) = numbers u + (e.numbers + numbers v) := by simp [numbers]
  omega

/-- Looking up the number of a name leads back to the entry that the name was found at. -/
theorem Archive.byIndex_first {f : Str} (hf : Plain f) {u : List Entry} {e : Entry}
    (hfirst : First f es u e) :
    3 ≤ (foundAt f a 3 u e).inode ∧ HasBytes m ((foundAt f a 3 u e).content - 512) f ∧
      ∀ fuel' ≥ es.length + 101, Tar.tarLookupByIndex m a (foundAt f a 3 u e).inode fuel' =
        some (.ok ⟨f.length, (foundAt f a 3 u e).content, BitVec.ofNat 32 e.size⟩) := by
  have hlt := h.number_lt hfirst
  obtain ⟨⟨v, rfl⟩, hnames, -⟩ := hfirst
  have hsize := h.size_lt
  have hinode : (foundAt f a 3 u e).inode = BitVec.ofNat 32 (3 + numbers u + f.count slash) := by
    rw [Nat.add_assoc 3, BitVec.ofNat_add 3]
    rfl
  have hge : 3 ≤ (foundAt f a 3 u e).inode := by
    have h3 : (3 : BitVec 32).toNat = 3 := rfl
    rw [hinode, BitVec.le_def, BitVec.toNat_ofNat, Nat.mod_eq_of_lt hlt, h3]
    omega
  refine ⟨hge, ?_, fun fuel' hfuel => ?_⟩
  · have hhead : ∀ {p u}, ArchiveAt m p (u ++ e :: v) → HeaderAt m (p + space u) e := by
      intro p u
      induction u generalizing p with
      | nil => exact fun ha => ha.1
      | cons x u ih =>
        intro ha
        have hrest := ih ha.2
        rwa [Nat.add_assoc, ← space_cons] at hrest
    have hbytes := (((hhead h.entries).match_iff hf.no_nul).2 hnames).1
    have hcontent : (foundAt f a 3 u e).content - 512 = a + space u := Nat.add_sub_cancel _ _
    rw [hcontent]
    exact memcmp_eq_zero.1 hbytes
  · rw [Tar.tarLookupByIndex, if_neg (BitVec.not_lt.2 hge), hinode]
    exact byIndexLoop_spec hf.ne_nil hf.last hf.no_nul hnames hlt h.entries (by omega) hfuel rfl

/-- Looking up the number of a name leads back to the name. -/
theorem Archive.byIndex {f : Str} (hf : Plain f) {fuel : Nat} {r : Tar.Found}
    (hr : Tar.tarLookup m a f fuel = some (.ok r)) :
    3 ≤ r.inode ∧ HasBytes m (r.content - 512) f ∧ ∃ len, ∀ fuel' ≥ es.length + 101,
      Tar.tarLookupByIndex m a r.inode fuel' = some (.ok ⟨f.length, r.content, len⟩) := by
  obtain ⟨u, e, hfirst, rfl⟩ := h.first hf.no_nul hr
  obtain ⟨hge, hbytes, hindex⟩ := h.byIndex_first hf hfirst
  exact ⟨hge, hbytes, _, hindex⟩

theorem Archive.lookup_some {f : Str} (h0 : (0 : BitVec 8) ∉ f) {fuel : Nat}
    (hf : es.length + 101 ≤ fuel) : ∃ r, Tar.tarLookup m a f fuel = some r := by
  by_cases hlen : f.length > 99
  · exact ⟨_, by rw [Tar.tarLookup, if_pos hlen]⟩
  · by_cases hsome : ∃ e ∈ es, Names f e
    · obtain ⟨u, e, hfirst⟩ := exists_first hsome
      exact ⟨_, tarLookup_first h0 h (by omega) hfirst hf⟩
    · exact ⟨_, tarLookup_none h0 h (by omega) (fun e he hn => hsome ⟨e, he, hn⟩) hf⟩

/-- A directory is found when something in it is. -/
theorem Archive.lookup_prefix {f g : Str} (h0 : (0 : BitVec 8) ∉ f ++ slash :: g) {fuel : Nat}
    (hf : es.length + 101 ≤ fuel) {r : Tar.Found}
    (hr : Tar.tarLookup m a (f ++ slash :: g) fuel = some (.ok r)) :
    ∃ c, Tar.tarLookup m a f fuel = some (.ok c) := by
  have hlen : f.length ≤ 99 := by
    by_contra hlong
    rw [Tar.tarLookup, if_pos (by rw [List.length_append]; omega)] at hr
    simp at hr
  obtain ⟨u, e, ⟨⟨v, hv⟩, hnames, -⟩, -⟩ := h.first h0 hr
  have hprefix : f ++ [slash] <+: e.name := by
    rcases hnames with he | he
    · exact ⟨g, by simp [he]⟩
    · obtain ⟨t, ht⟩ := he
      exact ⟨g ++ slash :: t, by simp [← ht]⟩
  have hmem : e ∈ es := by simp [hv]
  obtain ⟨u', e', hfirst'⟩ := exists_first ⟨e, hmem, .inr hprefix⟩
  exact ⟨_, tarLookup_first (fun hm => h0 (List.mem_append_left _ hm)) h hlen hfirst' hf⟩

omit h in
/-- Whatever the file name, the number grows along the archive. -/
theorem lookupLoop_number {f : Str} {p fuel : Nat} (h : ArchiveAt m p es)
    (hspace : space es < 2 ^ 32)
    (hf : es.length + 101 ≤ fuel) {c : Nat} {r : Tar.Found}
    (hr : Tar.lookupLoop m f fuel p (BitVec.ofNat 32 c) = some (.ok r)) :
    ∃ k, r.inode = BitVec.ofNat 32 k ∧ c ≤ k ∧ k ≤ c + numbers es + f.count slash := by
  induction es generalizing p fuel c with
  | nil =>
    obtain ⟨fuel, rfl⟩ : ∃ f, fuel = f + 1 := ⟨fuel - 1, by omega⟩
    rw [Tar.lookupLoop, if_neg fun he => h (memcmp_eq_zero.1 he)] at hr
    simp at hr
  | cons e es ih =>
    obtain ⟨fuel, rfl⟩ : ∃ f, fuel = f + 1 := ⟨fuel - 1, by omega⟩
    obtain ⟨hhead, htail⟩ := h
    rw [space_cons] at hspace
    rw [List.length_cons] at hf
    have hlen := hhead.length_le
    rw [Tar.lookupLoop, if_pos (memcmp_eq_zero.2 hhead.magic)] at hr
    dsimp only at hr
    rw [numbers_cons]
    by_cases hmatch : memcmp m p f = 0 ∧ (m (p + f.length) = 0 ∨ m (p + f.length) = slash)
    · rw [if_pos hmatch, Option.some.injEq, Except.ok.injEq] at hr
      refine ⟨c + f.count slash, ?_, by omega, by omega⟩
      rw [← hr, foldl_slashes, BitVec.ofNat_add]
    · have hnumber : BitVec.ofNat 32 c + BitVec.ofNat 32 (e.name.count slash) + 1 =
          BitVec.ofNat 32 (c + e.numbers) := by
        rw [Entry.numbers, ← Nat.add_assoc, BitVec.ofNat_add (c + e.name.count slash),
          BitVec.ofNat_add c]
        rfl
      rw [if_neg hmatch, skipName_spec hhead.name hhead.nul hhead.no_nul (by omega),
        Option.bind_some, hhead.nextHeader (by omega), hnumber] at hr
      obtain ⟨k, hk, hle, hle'⟩ := ih htail (by omega) (by omega) hr
      exact ⟨k, hk, by omega, by omega⟩

/-- Every number that `tar_lookup` finds is at least 3. -/
theorem Archive.number_ge {f : Str} {fuel : Nat} (hf : es.length + 101 ≤ fuel) {r : Tar.Found}
    (hr : Tar.tarLookup m a f fuel = some (.ok r)) : 3 ≤ r.inode := by
  have hsize := h.size_lt
  rw [Tar.tarLookup] at hr
  split_ifs at hr with hlong
  · simp at hr
  · obtain ⟨k, hk, hle, hle'⟩ := lookupLoop_number h.entries (by omega) hf (c := 3) hr
    have hcount : f.count slash ≤ f.length := List.count_le_length
    have hspace := numbers_le_space es (length_le h.entries)
    rw [hk, BitVec.le_def, BitVec.toNat_ofNat, Nat.mod_eq_of_lt (by omega)]
    exact hle

/-- Names are numbered one to one, and the scan by number agrees with the scan by name. -/
theorem tarLookup_byIndex :
    (∀ f fuel r, Plain f → Tar.tarLookup m a f fuel = some (.ok r) → 3 ≤ r.inode ∧
      HasBytes m (r.content - 512) f ∧ ∃ fuel₀ len, ∀ fuel' ≥ fuel₀,
        Tar.tarLookupByIndex m a r.inode fuel' = some (.ok ⟨f.length, r.content, len⟩)) ∧
    (∀ f g fuel fuel' r r', Plain f → Plain g → Tar.tarLookup m a f fuel = some (.ok r) →
      Tar.tarLookup m a g fuel' = some (.ok r') → f ≠ g → r.inode ≠ r'.inode) := by
  constructor
  · intro f fuel r hf hr
    obtain ⟨hge, hbytes, len, hindex⟩ := h.byIndex hf hr
    exact ⟨hge, hbytes, _, len, hindex⟩
  · intro f g fuel fuel' r r' hf hg hr hr' hne he
    obtain ⟨-, hbytes, len, hindex⟩ := h.byIndex hf hr
    obtain ⟨-, hbytes', len', hindex'⟩ := h.byIndex hg hr'
    have hsame := (hindex _ (Nat.le_refl _)).symm.trans (he ▸ hindex' _ (Nat.le_refl _))
    obtain ⟨hlen, hcontent, -⟩ := Tar.Indexed.mk.inj (Except.ok.inj (Option.some.inj hsame))
    rw [← hcontent] at hbytes'
    exact hne (List.ext_getElem hlen fun i hi hi' => (hbytes i hi).symm.trans (hbytes' i hi'))

end Agree

theorem tarLookup_byIndex_oneFile : ∃ r, Tar.tarLookup oneFile 0 [0x61] 102 = some (.ok r) ∧
    3 ≤ r.inode ∧ HasBytes oneFile (r.content - 512) [0x61] := by
  have hplain : Plain [0x61] := ⟨by decide, by decide, by decide⟩
  have hfirst : First [0x61] [⟨[0x61, 0x2F, 0x62], 5⟩] [] ⟨[0x61, 0x2F, 0x62], 5⟩ :=
    ⟨⟨[], rfl⟩, by decide, by simp⟩
  have hr := tarLookup_first hplain.no_nul oneFile_archive (by decide) hfirst (Nat.le_refl _)
  obtain ⟨hge, hbytes, -⟩ := (tarLookup_byIndex oneFile_archive).1 _ _ _ hplain hr
  exact ⟨_, hr, hge, hbytes⟩

end TinyLittleOs.Fs
