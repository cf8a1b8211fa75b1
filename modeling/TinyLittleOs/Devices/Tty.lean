import Mathlib.Data.BitVec
import TinyLittleOs.Lib.Outcome

/-!
# The text screen

`tty.cpp` of the build without `TINY_TEST`. The two buffers are functions from the index, and an
access beyond their 80 times 25 cells is an error, so that a call that returns has kept to them.
-/

namespace TinyLittleOs.Devices

open Lib

/-! ## Entries of the screen -/

/-- `formatting::color` -/
inductive Color where
  | black
  | blue
  | green
  | cyan
  | red
  | magenta
  | brown
  | lightGray
  | darkGray
  | lightBlue
  | lightGreen
  | lightCyan
  | lightRed
  | lightMagenta
  | lightBrown
  | white
  deriving DecidableEq

def Color.code (c : Color) : BitVec 8 := BitVec.ofNat 8 c.ctorIdx

/-- `formatting::color_pair` -/
structure ColorPair where
  fg : Color
  bg : Color

def vgaColor (fg bg : Color) : BitVec 8 := fg.code ||| bg.code <<< 4

abbrev Entry := BitVec 16

def vgaEntry (code color : BitVec 8) : Entry := code.setWidth 16 ||| color.setWidth 16 <<< 8

def vgaWidth : Nat := 80

def vgaHeight : Nat := 25

/-! ## The driver -/

/-- An index that is out of range. -/
inductive BadIndex where
  | screen (k : Nat)
  | ring (k : Nat)
  /-- Of the arrays of the keyboard. -/
  | key (scanCode : BitVec 8)

structure Tty where
  tX : Nat
  tY : Nat
  tColor : BitVec 8
  tBuf : Nat → Entry
  internalBuf : Nat → Entry
  internalBufI : Nat
  /-- The registers behind `FB_COMMAND_PORT` and `FB_DATA_PORT`. -/
  crtc : Nat → Nat

namespace Tty

/-- `t_buf[k] = e` -/
def setScreen (k : Nat) (e : Entry) (s : Tty) : Except BadIndex Tty :=
  if k < vgaWidth * vgaHeight then .ok { s with tBuf := Function.update s.tBuf k e }
  else .error (.screen k)

/-- `internal_buf[k] = e` -/
def setRing (k : Nat) (e : Entry) (s : Tty) : Except BadIndex Tty :=
  if k < vgaWidth * vgaHeight then .ok { s with internalBuf := Function.update s.internalBuf k e }
  else .error (.ring k)

/-- `internal_buf[k]` -/
def getRing (k : Nat) (s : Tty) : Except BadIndex Entry :=
  if k < vgaWidth * vgaHeight then .ok (s.internalBuf k) else .error (.ring k)

def screenIndex (x y : Nat) : Nat := y * vgaWidth + x

def ringIndex (i x y : Nat) : Nat := (y + i) % vgaHeight * vgaWidth + x

def setChar (code color : BitVec 8) (x y : Nat) (s : Tty) : Except BadIndex Tty := do
  let s ← s.setScreen (screenIndex x y) (vgaEntry code color)
  s.setRing (ringIndex s.internalBufI x y) (vgaEntry code color)

def setColor (c : ColorPair) (s : Tty) : Tty := { s with tColor := vgaColor c.fg c.bg }

/-- The loops that put a space in each column of row `y`. -/
def blankRow (y : Nat) (s : Tty) : Except BadIndex Tty :=
  (List.range vgaWidth).foldlM (fun s x => s.setChar 0x20 s.tColor x y) s

def initializeTty (s : Tty) : Except BadIndex Tty :=
  let s := { s with tX := 0, tY := 0, internalBufI := 0 }.setColor ⟨.black, .white⟩
  (List.range vgaHeight).foldlM (fun s y => s.blankRow y) s

def moveCursor (pos : Nat) (s : Tty) : Tty :=
  { s with
    crtc := Function.update (Function.update s.crtc 14 (pos >>> 8 &&& 0xFF)) 15 (pos &&& 0xFF) }

/-- The inner loop of `tty_scroll`. -/
def copyRow (y : Nat) (s : Tty) : Except BadIndex Tty :=
  (List.range vgaWidth).foldlM (fun s x => do
    let e ← s.getRing (ringIndex s.internalBufI x y)
    s.setScreen (screenIndex x y) e) s

def ttyScroll (s : Tty) : Except BadIndex Tty := do
  let i := s.internalBufI + 1
  let s := { s with internalBufI := if i = vgaHeight then 0 else i }
  let s ← (List.range vgaHeight).foldlM (fun s y => s.copyRow y) s
  s.blankRow (vgaHeight - 1)

/-- The part that both branches of `put` have. -/
def newLine (s : Tty) : Except BadIndex Tty :=
  let s := { s with tX := 0 }
  if s.tY = vgaHeight - 1 then s.ttyScroll else .ok { s with tY := s.tY + 1 }

/-- `put` without the call of `move_cursor`. -/
def putChar (c : BitVec 8) (s : Tty) : Except BadIndex Tty :=
  if c = 0x0A then s.newLine
  else do
    let s ← s.setChar c s.tColor s.tX s.tY
    let s := { s with tX := s.tX + 1 }
    if s.tX = vgaWidth then s.newLine else .ok s

def put (c : BitVec 8) (s : Tty) : Except BadIndex Tty := do
  let s ← s.putChar c
  .ok (s.moveCursor ((s.tX + s.tY * vgaWidth) % 2 ^ 16))

end Tty

/-- A call of the driver. -/
inductive Call where
  | put (c : BitVec 8)
  | setColor (c : ColorPair)

def Tty.call (s : Tty) : Call → Except BadIndex Tty
  | .put c => s.put c
  | .setColor c => .ok (s.setColor c)

/-- The driver after `tty::initialize` and some calls. -/
def Tty.run (s : Tty) (l : List Call) : Except BadIndex Tty := do
  let s ← s.initializeTty
  l.foldlM Tty.call s

/-! ## The terminal -/

/-- A terminal that keeps all its lines, `count` of them, of 80 columns each. -/
structure Terminal where
  line : Nat → Nat → Entry
  count : Nat
  row : Nat
  col : Nat
  color : BitVec 8

namespace Terminal

def blank (color : BitVec 8) : Nat → Entry := fun _ => vgaEntry 0x20 color

/-- A screen of blank lines. -/
def initial : Terminal where
  line _ := blank (vgaColor .black .white)
  count := vgaHeight
  row := 0
  col := 0
  color := vgaColor .black .white

/-- The cursor goes to the next line, which is new after the last one. -/
def newLine (t : Terminal) : Terminal :=
  if t.row + 1 = t.count then
    { t with
      line := Function.update t.line t.count (blank t.color)
      count := t.count + 1
      row := t.row + 1
      col := 0 }
  else { t with row := t.row + 1, col := 0 }

/-- Write at the cursor and advance it. -/
def write (e : Entry) (t : Terminal) : Terminal :=
  { t with
    line := Function.update t.line t.row (Function.update (t.line t.row) t.col e)
    col := t.col + 1 }

def put (c : BitVec 8) (t : Terminal) : Terminal :=
  if c = 0x0A then t.newLine
  else
    let t := t.write (vgaEntry c t.color)
    if t.col = vgaWidth then t.newLine else t

def call (t : Terminal) : Call → Terminal
  | .put c => t.put c
  | .setColor c => { t with color := vgaColor c.fg c.bg }

/-- The number of the lines above the last 25. -/
def above (t : Terminal) : Nat := t.count - vgaHeight

end Terminal

/-! ## Cells by column and row -/

theorem screenIndex_lt {x y : Nat} (hx : x < vgaWidth) (hy : y < vgaHeight) :
    Tty.screenIndex x y < vgaWidth * vgaHeight := by
  simp only [Tty.screenIndex, vgaWidth, vgaHeight] at *
  omega

theorem ringIndex_lt (i : Nat) {x : Nat} (hx : x < vgaWidth) (y : Nat) :
    Tty.ringIndex i x y < vgaWidth * vgaHeight := by
  simp only [Tty.ringIndex, vgaWidth, vgaHeight] at *
  omega

theorem screenIndex_inj {x y x' y' : Nat} (hx : x < vgaWidth) (hx' : x' < vgaWidth) :
    Tty.screenIndex x' y' = Tty.screenIndex x y ↔ x' = x ∧ y' = y := by
  simp only [Tty.screenIndex, vgaWidth] at *
  omega

theorem ringIndex_inj (i : Nat) {x y x' y' : Nat} (hx : x < vgaWidth) (hx' : x' < vgaWidth)
    (hy : y < vgaHeight) (hy' : y' < vgaHeight) :
    Tty.ringIndex i x' y' = Tty.ringIndex i x y ↔ x' = x ∧ y' = y := by
  simp only [Tty.ringIndex, vgaWidth, vgaHeight] at *
  omega

/-- The origin of the ring. -/
def nextOrigin (i : Nat) : Nat := if i + 1 = vgaHeight then 0 else i + 1

theorem nextOrigin_lt {i : Nat} (hi : i < vgaHeight) : nextOrigin i < vgaHeight := by
  rw [nextOrigin]
  split <;> omega

/-- With the next origin each row is the one below it. -/
theorem ringIndex_nextOrigin (i x y : Nat) :
    Tty.ringIndex (nextOrigin i) x y = Tty.ringIndex i x (y + 1) := by
  have hmod : (y + nextOrigin i) % vgaHeight = (y + 1 + i) % vgaHeight := by
    rw [nextOrigin]
    split
    · have hi' : y + 1 + i = y + 0 + vgaHeight := by omega
      rw [hi', Nat.add_mod_right]
    · congr 1
      omega
  rw [Tty.ringIndex, Tty.ringIndex, hmod]

namespace Tty

/-- The cell that is to be seen. -/
def screen (s : Tty) (x y : Nat) : Entry := s.tBuf (screenIndex x y)

/-- The cell of the ring that stands for it. -/
def ring (s : Tty) (x y : Nat) : Entry := s.internalBuf (ringIndex s.internalBufI x y)

/-- The cells in `P` are set to `e`, on the screen and in the ring. -/
structure Paints (P : Nat → Nat → Prop) (e : Entry) (s s' : Tty) : Prop where
  rest : s' = { s with tBuf := s'.tBuf, internalBuf := s'.internalBuf }
  on : ∀ x < vgaWidth, ∀ y < vgaHeight, P x y → s'.screen x y = e ∧ s'.ring x y = e
  off : ∀ x < vgaWidth, ∀ y < vgaHeight, ¬ P x y →
    s'.screen x y = s.screen x y ∧ s'.ring x y = s.ring x y

/-- The cells in `P` are copied from the ring. -/
structure Copies (P : Nat → Nat → Prop) (s s' : Tty) : Prop where
  rest : s' = { s with tBuf := s'.tBuf }
  on : ∀ x < vgaWidth, ∀ y < vgaHeight, P x y → s'.screen x y = s.ring x y
  off : ∀ x < vgaWidth, ∀ y < vgaHeight, ¬ P x y → s'.screen x y = s.screen x y

variable {P Q : Nat → Nat → Prop} {e : Entry} {s s' s'' : Tty}

theorem Paints.refl : Paints (fun _ _ => False) e s s :=
  ⟨rfl, fun _ _ _ _ hp => hp.elim, fun _ _ _ _ _ => ⟨rfl, rfl⟩⟩

theorem Paints.trans (h : Paints P e s s') (h' : Paints Q e s' s'') :
    Paints (fun x y => P x y ∨ Q x y) e s s'' := by
  refine ⟨?_, fun x hx y hy hpq => ?_, fun x hx y hy hpq => ?_⟩
  · rw [h'.rest, h.rest]
  · by_cases hq : Q x y
    · exact h'.on x hx y hy hq
    · obtain ⟨hscreen, hring⟩ := h'.off x hx y hy hq
      rw [hscreen, hring]
      exact h.on x hx y hy (hpq.resolve_right hq)
  · obtain ⟨hscreen, hring⟩ := h'.off x hx y hy fun hq => hpq (Or.inr hq)
    rw [hscreen, hring]
    exact h.off x hx y hy fun hp => hpq (Or.inl hp)

theorem Paints.tColor (h : Paints P e s s') : s'.tColor = s.tColor := by
  rw [h.rest]

theorem Copies.refl : Copies (fun _ _ => False) s s :=
  ⟨rfl, fun _ _ _ _ hp => hp.elim, fun _ _ _ _ _ => rfl⟩

theorem Copies.ring (h : Copies P s s') (x y : Nat) : s'.ring x y = s.ring x y := by
  rw [h.rest]
  rfl

theorem Copies.trans (h : Copies P s s') (h' : Copies Q s' s'') :
    Copies (fun x y => P x y ∨ Q x y) s s'' := by
  refine ⟨?_, fun x hx y hy hpq => ?_, fun x hx y hy hpq => ?_⟩
  · rw [h'.rest, h.rest]
  · by_cases hq : Q x y
    · rw [h'.on x hx y hy hq, h.ring]
    · rw [h'.off x hx y hy hq]
      exact h.on x hx y hy (hpq.resolve_right hq)
  · rw [h'.off x hx y hy fun hq => hpq (Or.inr hq)]
    exact h.off x hx y hy fun hp => hpq (Or.inl hp)

/-- No index is out of range, and the result satisfies `Q`. -/
def Ends (r : Except BadIndex Tty) (Q : Tty → Prop) : Prop := ∃ s, r = .ok s ∧ Q s

theorem Ends.of {Q : Tty → Prop} (h : Q s) : Ends (.ok s) Q := ⟨s, rfl, h⟩

theorem Ends.mono {r : Except BadIndex Tty} {Q Q' : Tty → Prop} (h : Ends r Q)
    (hQ : ∀ s, Q s → Q' s) : Ends r Q' := by
  obtain ⟨s, hs, hq⟩ := h
  exact ⟨s, hs, hQ s hq⟩

theorem Ends.bind {r : Except BadIndex Tty} {f : Tty → Except BadIndex Tty} {Q Q' : Tty → Prop}
    (h : Ends r Q) (hf : ∀ s, Q s → Ends (f s) Q') : Ends (r >>= f) Q' := by
  obtain ⟨s, rfl, hq⟩ := h
  exact hf s hq

/-- A loop whose round `k` treats the cells in `P k`. -/
theorem range_ends {R : (Nat → Nat → Prop) → Tty → Tty → Prop}
    (hrefl : ∀ s, R (fun _ _ => False) s s)
    (htrans : ∀ P Q s s' s'', R P s s' → R Q s' s'' → R (fun x y => P x y ∨ Q x y) s s'')
    {f : Tty → Nat → Except BadIndex Tty} {P : Nat → Nat → Nat → Prop} {n : Nat}
    (hf : ∀ k < n, ∀ s, Ends (f s k) (R (P k) s)) (s : Tty) :
    Ends ((List.range n).foldlM f s) (R (fun x y => ∃ k < n, P k x y) s) := by
  induction n with
  | zero =>
    have hnone : (fun x y => ∃ k < 0, P k x y) = fun _ _ => False := by
      funext x y
      simp
    rw [hnone]
    exact Ends.of (hrefl s)
  | succ n ih =>
    have hsplit : (fun x y => ∃ k < n + 1, P k x y) =
        fun x y => (∃ k < n, P k x y) ∨ P n x y := by
      funext x y
      exact propext Nat.exists_lt_succ_right
    rw [hsplit, List.range_succ, List.foldlM_append]
    apply (ih fun k hk => hf k (Nat.lt_succ_of_lt hk)).bind
    intro s₁ h₁
    rw [List.foldlM_cons]
    apply (hf n (Nat.lt_succ_self n) s₁).bind
    intro s₂ h₂
    exact Ends.of (htrans _ _ _ _ _ h₁ h₂)

/-! ## The operations cell by cell -/

theorem setChar_ends (c color : BitVec 8) {x y : Nat} (hx : x < vgaWidth) (hy : y < vgaHeight)
    (s : Tty) :
    Ends (s.setChar c color x y) (Paints (fun x' y' => x' = x ∧ y' = y) (vgaEntry c color) s) := by
  rw [setChar, setScreen, if_pos (screenIndex_lt hx hy), ok_bind, setRing,
    if_pos (ringIndex_lt _ hx y)]
  refine Ends.of ⟨rfl, fun x' hx' y' hy' hp => ?_, fun x' hx' y' hy' hp => ?_⟩
  · obtain ⟨rfl, rfl⟩ := hp
    exact ⟨Function.update_self .., Function.update_self ..⟩
  · have hscreen := mt (screenIndex_inj hx hx').1 hp
    have hring := mt (ringIndex_inj s.internalBufI hx hx' hy hy').1 hp
    exact ⟨Function.update_of_ne hscreen .., Function.update_of_ne hring ..⟩

/-- The cells in `P` become spaces of the current colour. -/
def Blanks (P : Nat → Nat → Prop) (s s' : Tty) : Prop := Paints P (vgaEntry 0x20 s.tColor) s s'

theorem Blanks.trans (h : Blanks P s s') (h' : Blanks Q s' s'') :
    Blanks (fun x y => P x y ∨ Q x y) s s'' := by
  rw [Blanks, h.tColor] at h'
  exact Paints.trans h h'

theorem blankRow_ends {y : Nat} (hy : y < vgaHeight) (s : Tty) :
    Ends (s.blankRow y) (Blanks (fun x' y' => ∃ x < vgaWidth, x' = x ∧ y' = y) s) := by
  apply range_ends
  · exact fun s => Paints.refl
  · exact fun P Q s s' s'' => Blanks.trans
  · exact fun x hx s => setChar_ends 0x20 s.tColor hx hy s

theorem copyRow_ends {y : Nat} (hy : y < vgaHeight) (s : Tty) :
    Ends (s.copyRow y) (Copies (fun x' y' => ∃ x < vgaWidth, x' = x ∧ y' = y) s) := by
  apply range_ends
  · exact fun s => Copies.refl
  · exact fun P Q s s' s'' => Copies.trans
  · intro x hx s
    rw [getRing, if_pos (ringIndex_lt _ hx y), ok_bind, setScreen, if_pos (screenIndex_lt hx hy)]
    refine Ends.of ⟨rfl, fun x' hx' y' hy' hp => ?_, fun x' hx' y' hy' hp => ?_⟩
    · obtain ⟨rfl, rfl⟩ := hp
      exact Function.update_self ..
    · have hscreen := mt (screenIndex_inj hx hx').1 hp
      exact Function.update_of_ne hscreen ..

/-- All cells are spaces after the start. -/
theorem initializeTty_ends (s : Tty) : Ends s.initializeTty fun s' =>
    s'.tX = 0 ∧ s'.tY = 0 ∧ s'.tColor = vgaColor .black .white ∧ s'.internalBufI = 0 ∧
    ∀ x < vgaWidth, ∀ y < vgaHeight, s'.screen x y = vgaEntry 0x20 s'.tColor ∧
      s'.ring x y = vgaEntry 0x20 s'.tColor := by
  have hloop := range_ends (R := Blanks) (n := vgaHeight) (fun _ => Paints.refl)
    (fun _ _ _ _ _ => Blanks.trans) (fun y hy s => blankRow_ends hy s)
  refine (hloop _).mono fun s' hs' => ?_
  have hrest := Paints.rest hs'
  refine ⟨by rw [hrest]; rfl, by rw [hrest]; rfl, by rw [hrest]; rfl, by rw [hrest]; rfl, ?_⟩
  intro x hx y hy
  rw [Paints.tColor hs']
  exact Paints.on hs' x hx y hy ⟨y, hy, x, hx, rfl, rfl⟩

/-- The screen moves up by a row, and so does the ring. -/
theorem ttyScroll_ends {s : Tty} (hi : s.internalBufI < vgaHeight) : Ends s.ttyScroll fun s' =>
    s' = { s with tBuf := s'.tBuf, internalBuf := s'.internalBuf, internalBufI := s'.internalBufI }
    ∧
    s'.internalBufI < vgaHeight ∧
    (∀ x < vgaWidth, ∀ y < vgaHeight - 1, s'.screen x y = s.ring x (y + 1) ∧
      s'.ring x y = s.ring x (y + 1)) ∧
    ∀ x < vgaWidth, s'.screen x (vgaHeight - 1) = vgaEntry 0x20 s.tColor ∧
      s'.ring x (vgaHeight - 1) = vgaEntry 0x20 s.tColor := by
  rw [ttyScroll]
  -- the ring is rotated first
  have hring : ∀ x y, ({ s with internalBufI := nextOrigin s.internalBufI } : Tty).ring x y =
      s.ring x (y + 1) := fun x y => congrArg s.internalBuf (ringIndex_nextOrigin _ x y)
  have hcopy : Ends ((List.range vgaHeight).foldlM (fun s y => s.copyRow y)
      ({ s with internalBufI := nextOrigin s.internalBufI } : Tty)) (Copies
      (fun x' y' => ∃ y < vgaHeight, ∃ x < vgaWidth, x' = x ∧ y' = y)
      ({ s with internalBufI := nextOrigin s.internalBufI } : Tty)) := by
    apply range_ends
    · exact fun s => Copies.refl
    · exact fun P Q s s' s'' => Copies.trans
    · exact fun y hy s => copyRow_ends hy s
  refine hcopy.bind fun s₁ h₁ => ?_
  refine (blankRow_ends (show vgaHeight - 1 < vgaHeight by decide) s₁).mono fun s' h' => ?_
  have hcolor : s₁.tColor = s.tColor := by rw [h₁.rest]
  refine ⟨?_, ?_, fun x hx y hy => ?_, fun x hx => ?_⟩
  · rw [Paints.rest h', h₁.rest]
  · rw [Paints.rest h', h₁.rest]
    exact nextOrigin_lt hi
  · have hy' : y < vgaHeight := by omega
    have hoff := Paints.off h' x hx y hy' fun hp => by
      obtain ⟨_, _, _, hlast⟩ := hp
      omega
    rw [hoff.1, hoff.2, h₁.ring, h₁.on x hx y hy' ⟨y, hy', x, hx, rfl, rfl⟩, hring]
    exact ⟨rfl, rfl⟩
  · rw [← hcolor]
    exact Paints.on h' x hx _ (by decide) ⟨x, hx, rfl, rfl⟩

end Tty

/-! ## The screen and the terminal -/

/-- The screen shows the last lines, and the ring has them too. The cursor's column may be the one
after the last. -/
structure Displays (s : Tty) (t : Terminal) : Prop where
  y_lt : s.tY < vgaHeight
  i_lt : s.internalBufI < vgaHeight
  count : vgaHeight ≤ t.count
  row : t.row = t.above + s.tY
  color : t.color = s.tColor
  cells : ∀ x < vgaWidth, ∀ y < vgaHeight, s.screen x y = t.line (t.above + y) x ∧
    s.ring x y = t.line (t.above + y) x

/-- The driver is in step with the terminal. -/
structure Shows (s : Tty) (t : Terminal) : Prop where
  x_lt : s.tX < 80
  y_lt : s.tY < 25
  i_lt : s.internalBufI < 25
  /-- The two copies agree. -/
  mirror : ∀ x < 80, ∀ y < 25,
    s.tBuf (y * 80 + x) = s.internalBuf ((y + s.internalBufI) % 25 * 80 + x)
  /-- The last 25 lines are to be seen. -/
  count : 25 ≤ t.count
  cells : ∀ x < 80, ∀ y < 25, s.tBuf (y * 80 + x) = t.line (t.count - 25 + y) x
  col : t.col = s.tX
  row : t.row = t.count - 25 + s.tY
  color : t.color = s.tColor

theorem Displays.shows {s : Tty} {t : Terminal} (h : Displays s t) (hx : s.tX < vgaWidth)
    (hcol : t.col = s.tX) : Shows s t where
  x_lt := hx
  y_lt := h.y_lt
  i_lt := h.i_lt
  mirror x hx y hy := (h.cells x hx y hy).1.trans (h.cells x hx y hy).2.symm
  count := h.count
  cells x hx y hy := (h.cells x hx y hy).1
  col := hcol
  row := h.row
  color := h.color

theorem Shows.displays {s : Tty} {t : Terminal} (h : Shows s t) : Displays s t where
  y_lt := h.y_lt
  i_lt := h.i_lt
  count := h.count
  row := h.row
  color := h.color
  cells x hx y hy := ⟨h.cells x hx y hy, (h.mirror x hx y hy).symm.trans (h.cells x hx y hy)⟩

open Tty

theorem Displays.newLine {s : Tty} {t : Terminal} (h : Displays s t) :
    Ends s.newLine fun s' => Shows s' t.newLine := by
  have hrow := h.row
  have hcount := h.count
  have hy := h.y_lt
  rw [Terminal.above] at hrow
  rw [Tty.newLine]
  dsimp only
  by_cases hlast : s.tY = vgaHeight - 1
  · -- the terminal gets a new line
    have hend : t.row + 1 = t.count := by omega
    rw [if_pos hlast, Terminal.newLine, if_pos hend]
    refine (ttyScroll_ends (s := { s with tX := 0 }) h.i_lt).mono fun s' h' => ?_
    obtain ⟨hrest, hi, hup, hblank⟩ := h'
    have habove : t.count + 1 - vgaHeight = t.above + 1 := by
      rw [Terminal.above]
      omega
    have hx : s'.tX = 0 := by rw [hrest]
    have hy' : s'.tY = s.tY := by rw [hrest]
    have hcolor : s'.tColor = s.tColor := by rw [hrest]
    refine Displays.shows ⟨?_, hi, Nat.le_succ_of_le hcount, ?_, ?_, fun x hx y hy => ?_⟩ ?_ hx.symm
    · rw [hy']
      exact hy
    · dsimp only [Terminal.above]
      omega
    · rw [hcolor]
      exact h.color
    · dsimp only
      rw [Terminal.above, habove]
      by_cases hylast : y = vgaHeight - 1
      · have hnew : t.above + 1 + y = t.count := by
          rw [Terminal.above]
          omega
        rw [hnew, Function.update_self, hylast, h.color]
        exact hblank x hx
      · have hold : t.above + 1 + y ≠ t.count := by
          rw [Terminal.above]
          omega
        have hcell := (h.cells x hx (y + 1) (by omega)).2
        rw [Function.update_of_ne hold, Nat.add_assoc, Nat.add_comm 1 y, ← hcell]
        exact hup x hx y (by omega)
    · rw [hx]
      decide
  · have hend : t.row + 1 ≠ t.count := by omega
    rw [if_neg hlast, Terminal.newLine, if_neg hend]
    refine Ends.of (Displays.shows ⟨?_, h.i_lt, h.count, ?_, h.color, h.cells⟩ ?_ rfl)
    · dsimp only
      omega
    · dsimp only [Terminal.above]
      omega
    · exact Nat.zero_lt_succ _

/-- A character is written at the cursor. -/
theorem Shows.write {s : Tty} {t : Terminal} (h : Shows s t) (c : BitVec 8) :
    Ends (s.setChar c s.tColor s.tX s.tY) fun s' => s'.tX = s.tX ∧
      Displays { s' with tX := s'.tX + 1 } (t.write (vgaEntry c t.color)) := by
  have hrow : t.row = t.above + s.tY := h.row
  refine (setChar_ends c s.tColor h.x_lt h.y_lt s).mono fun s' h' => ⟨by rw [h'.rest], ?_⟩
  have hcolor := h'.tColor
  refine ⟨?_, ?_, h.count, ?_, ?_, fun x hx y hy => ?_⟩
  · rw [h'.rest]
    exact h.y_lt
  · rw [h'.rest]
    exact h.i_lt
  · rw [h'.rest]
    exact h.row
  · exact h.color.trans hcolor.symm
  · have hcell := h.displays.cells x hx y hy
    have hline : (t.write (vgaEntry c t.color)).line (t.above + y) x =
        if x = s.tX ∧ y = s.tY then vgaEntry c s.tColor else t.line (t.above + y) x := by
      have hiff : t.above + y = t.row ↔ y = s.tY := by omega
      have hcol := h.col
      rw [Terminal.write, h.color]
      simp only [Function.update_apply, hiff, hcol]
      by_cases hy' : y = s.tY
      · by_cases hx' : x = s.tX
        · simp [hx', hy']
        · simp [hx', hy', hrow]
      · simp [hy']
    change s'.screen x y = (t.write _).line (t.above + y) x ∧
      s'.ring x y = (t.write _).line (t.above + y) x
    rw [hline]
    by_cases hat : x = s.tX ∧ y = s.tY
    · rw [if_pos hat]
      exact h'.on x hx y hy hat
    · rw [if_neg hat, ← hcell.1]
      obtain ⟨hscreen, hring⟩ := h'.off x hx y hy hat
      exact ⟨hscreen, hring.trans (hcell.2.trans hcell.1.symm)⟩

theorem Shows.moveCursor {s : Tty} {t : Terminal} (h : Shows s t) (pos : Nat) :
    Shows (s.moveCursor pos) t :=
  ⟨h.x_lt, h.y_lt, h.i_lt, h.mirror, h.count, h.cells, h.col, h.row, h.color⟩

theorem Shows.putChar {s : Tty} {t : Terminal} (h : Shows s t) (c : BitVec 8) :
    Ends (s.putChar c) fun s' => Shows s' (t.put c) := by
  rw [Tty.putChar]
  by_cases hnew : c = 0x0A
  · rw [if_pos hnew, Terminal.put, if_pos hnew]
    exact h.displays.newLine
  · rw [if_neg hnew, Terminal.put, if_neg hnew]
    refine (h.write c).bind fun s' hs' => ?_
    obtain ⟨hx, hdisplays⟩ := hs'
    have hcol : (t.write (vgaEntry c t.color)).col = s'.tX + 1 := by
      rw [hx, ← h.col]
      rfl
    dsimp only
    rw [hcol]
    by_cases hwrap : s'.tX + 1 = vgaWidth
    · rw [if_pos hwrap, if_pos hwrap]
      exact hdisplays.newLine
    · have hlt := h.x_lt
      rw [if_neg hwrap, if_neg hwrap]
      refine Ends.of (hdisplays.shows ?_ hcol)
      dsimp only [vgaWidth] at *
      omega

/-- After `put` the cursor of the screen, too, is where the next character goes. -/
theorem Shows.put {s : Tty} {t : Terminal} (h : Shows s t) (c : BitVec 8) :
    Ends (s.put c) fun s' => Shows s' (t.put c) ∧
      s'.crtc 14 * 2 ^ 8 + s'.crtc 15 = s'.tY * 80 + s'.tX := by
  refine (h.putChar c).bind fun s' h' => Ends.of ⟨h'.moveCursor _, ?_⟩
  have hx := h'.x_lt
  have hy := h'.y_lt
  have hlow : (s'.tX + s'.tY * vgaWidth) % 2 ^ 16 = s'.tY * 80 + s'.tX := by
    dsimp only [vgaWidth]
    omega
  rw [hlow, Tty.moveCursor]
  dsimp only
  rw [Function.update_of_ne (by decide), Function.update_self, Function.update_self,
    Nat.and_two_pow_sub_one_eq_mod _ 8, Nat.and_two_pow_sub_one_eq_mod _ 8,
    Nat.shiftRight_eq_div_pow]
  omega

theorem Shows.call {s : Tty} {t : Terminal} (h : Shows s t) (c : Call) :
    Ends (s.call c) fun s' => Shows s' (t.call c) := by
  cases c with
  | put c => exact (h.put c).mono fun s' h' => h'.1
  | setColor c =>
    exact Ends.of ⟨h.x_lt, h.y_lt, h.i_lt, h.mirror, h.count, h.cells, h.col, h.row, rfl⟩

theorem shows_initial (s : Tty) : Ends s.initializeTty fun s' => Shows s' Terminal.initial := by
  refine (initializeTty_ends s).mono fun s' h => ?_
  obtain ⟨hx, hy, hcolor, hi, hcells⟩ := h
  refine Displays.shows ⟨?_, ?_, Nat.le_refl _, ?_, hcolor.symm, fun x hx y hy => ?_⟩ ?_ hx.symm
  · rw [hy]
    decide
  · rw [hi]
    decide
  · rw [hy]
    rfl
  · rw [hcolor] at hcells
    exact hcells x hx y hy
  · rw [hx]
    decide

/-- After any calls no index was out of range, and the screen shows the last 25 lines of a terminal
that got the same calls. -/
theorem run_shows (s : Tty) (l : List Call) :
    ∃ s', s.run l = .ok s' ∧ Shows s' (l.foldl Terminal.call Terminal.initial) := by
  have hcalls : ∀ (l : List Call) (s : Tty) (t : Terminal), Shows s t →
      Ends (l.foldlM Tty.call s) fun s' => Shows s' (l.foldl Terminal.call t) := by
    intro l
    induction l with
    | nil => exact fun s t h => Ends.of h
    | cons c l ih =>
      intro s t h
      rw [List.foldlM_cons, List.foldl_cons]
      exact (h.call c).bind fun s' h' => ih s' _ h'
  rw [Tty.run]
  exact (shows_initial s).bind fun s' h => hcalls l s' _ h

end TinyLittleOs.Devices
