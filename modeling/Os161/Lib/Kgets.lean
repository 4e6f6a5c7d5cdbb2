import Mathlib.Data.Int.Notation
import Mathlib.Data.List.TakeWhile
import Mathlib.Logic.Function.Basic
/-!
# `kern/lib/kgets.c`

`kgets` edits the line in the caller's buffer and keeps the screen in step with
it. What it leaves is the fold of an edit over a stack (`kgets_edits`). The screen
falls behind only through `beep`, which prints a warning where there is no beep
device (`beep_hides_line`).
-/

namespace Os161

namespace Lib

open Function

/-- The line that the cursor is on: what stands before the cursor, the nearest
first, and what stands from it on. -/
structure Screen where
  before : List ℤ
  behind : List ℤ

/-- `putch`, as the terminal shows it. -/
def Screen.putch (t : Screen) (ch : ℤ) : Screen :=
  if ch = 8 then
    match t.before with
    | [] => t
    | c :: before => ⟨before, c :: t.behind⟩
  else if ch = 10 then ⟨[], []⟩
  else ⟨ch :: t.before, t.behind.tail⟩

/-- The characters of a string, one `putch` each. -/
def Screen.puts (t : Screen) (s : List ℤ) : Screen := s.foldl Screen.putch t

def backsp (t : Screen) : Screen := ((t.putch 8).putch 32).putch 8

/-- `beep`: without a device (`the_beep == NULL`) it prints a line. -/
def beep (theBeep : Bool) (t : Screen) : Screen :=
  if theBeep then t
  else (t.puts ("beep: Warning: no beep device".toList.map fun c => (c.toNat : ℤ))).putch 10

/-- The variables of `kgets`, the bytes from `buf` on, the screen, and how often
`beep` was called since the line was last printed. -/
structure Kgets where
  pos : ℕ
  buf : ℕ → ℤ
  screen : Screen
  beeps : ℕ

namespace Kgets

/-- `backsp(); pos--;`. -/
def erase (s : Kgets) : Kgets := { s with pos := s.pos - 1, screen := backsp s.screen }

/-- `while (pos > 0 && p(buf[pos-1]))` around that, for at most `n` turns. -/
def eraseWhile (p : ℤ → Bool) : ℕ → Kgets → Kgets
  | 0, s => s
  | n + 1, s => if s.pos > 0 ∧ p (s.buf (s.pos - 1)) then eraseWhile p n s.erase else s

/-- What `kprintf("%s", buf)` prints, after `buf[pos] = 0`. -/
def text (s : Kgets) : List ℤ := ((List.range s.pos).map s.buf).takeWhile (· ≠ 0)

/-- One turn of the loop, and whether it ends there. -/
def turn (theBeep : Bool) (maxlen : ℕ) (s : Kgets) (ch : ℤ) : Kgets × Bool :=
  if ch = 10 ∨ ch = 13 then ({ s with screen := s.screen.putch 10 }, true)
  else if 32 ≤ ch ∧ ch < 127 ∧ s.pos < maxlen - 1 then
    ({ s with
      pos := s.pos + 1
      buf := update s.buf s.pos ch
      screen := s.screen.putch ch }, false)
  else if (ch = 8 ∨ ch = 127) ∧ s.pos > 0 then (s.erase, false)
  else if ch = 3 then ({ s with pos := 0, screen := s.screen.puts [94, 67, 10] }, true)
  else if ch = 18 then
    ({ s with
      buf := update s.buf s.pos 0
      screen := (s.screen.puts [94, 82, 10]).puts s.text
      beeps := 0 }, false)
  else if ch = 21 then (s.eraseWhile (fun _ => true) s.pos, false)
  else if ch = 23 then
    let s := s.eraseWhile (· = 32) s.pos
    (s.eraseWhile (· ≠ 32) s.pos, false)
  else ({ s with screen := beep theBeep s.screen, beeps := s.beeps + 1 }, false)

end Kgets

/-- `kgets`, on the characters that `getch` gives, and whether it has returned;
if not, it waits for one more. -/
def kgets (theBeep : Bool) (maxlen : ℕ) : List ℤ → Kgets → Kgets × Bool
  | [], s => (s, false)
  | ch :: input, s =>
    match s.turn theBeep maxlen ch with
    | (s, true) => ({ s with buf := update s.buf s.pos 0 }, true)
    | (s, false) => kgets theBeep maxlen input s

/-! ## The edit -/

/-- What a character does to the line, which is a stack. -/
def edit (maxlen : ℕ) (stack : List ℤ) (ch : ℤ) : List ℤ :=
  if 32 ≤ ch ∧ ch < 127 then if stack.length < maxlen - 1 then ch :: stack else stack
  else if ch = 8 ∨ ch = 127 then stack.tail
  else if ch = 21 then []
  else if ch = 23 then (stack.dropWhile (· = 32)).dropWhile (· ≠ 32)
  else stack

/-- Newline, carriage return and ^C. -/
def EndsLine (ch : ℤ) : Prop := ch = 10 ∨ ch = 13 ∨ ch = 3

/-- The bytes at `buf` are a string and its NUL. -/
def IsString (buf : ℕ → ℤ) (s : List ℤ) : Prop :=
  (List.range s.length).map buf = s ∧ buf s.length = 0

/-- The line shows the stack, behind the prompt or, when it was reprinted, at its
beginning, and nothing else. -/
def Shows (prompt : List ℤ) (t : Screen) (stack : List ℤ) : Prop :=
  (t.before = stack ++ prompt ∨ t.before = stack) ∧ ∀ c ∈ t.behind, c = 32

/-- The editor is in step with the stack, on a buffer that was `buf` before. -/
structure InStep (theBeep : Bool) (maxlen : ℕ) (buf : ℕ → ℤ) (prompt : List ℤ) (s : Kgets)
    (stack : List ℤ) : Prop where
  pos : s.pos = stack.length
  room : s.pos < maxlen
  text : (List.range s.pos).map s.buf = stack.reverse
  plain : ∀ c ∈ stack, 32 ≤ c
  rest : ∀ i ≥ maxlen, s.buf i = buf i
  shown : theBeep ∨ s.beeps = 0 → Shows prompt s.screen stack

variable {theBeep : Bool} {maxlen : ℕ} {buf : ℕ → ℤ} {prompt stack : List ℤ} {s : Kgets} {c ch : ℤ}

theorem map_range_update (f : ℕ → ℤ) (n : ℕ) (c : ℤ) :
    (List.range n).map (update f n c) = (List.range n).map f :=
  List.map_congr_left fun _ hi => update_of_ne (Nat.ne_of_lt (List.mem_range.1 hi)) _ _

theorem Shows.push {t : Screen} (h : Shows prompt t stack) (hch : 32 ≤ ch) :
    Shows prompt (t.putch ch) (ch :: stack) := by
  unfold Screen.putch
  rw [if_neg (by omega), if_neg (by omega)]
  exact ⟨h.1.imp (congrArg _) (congrArg _), fun c hc => h.2 c (List.mem_of_mem_tail hc)⟩

theorem Shows.pop {t : Screen} (h : Shows prompt t (c :: stack)) :
    Shows prompt (backsp t) stack := by
  obtain ⟨before, behind⟩ := t
  obtain ⟨hshown, hblank⟩ := h
  have hblanks : ∀ c ∈ 32 :: behind, c = 32 := List.forall_mem_cons.2 ⟨rfl, hblank⟩
  rcases hshown with rfl | rfl
  · exact ⟨.inl rfl, hblanks⟩
  · exact ⟨.inr rfl, hblanks⟩

/-- A line that is printed from its beginning. -/
theorem Shows.puts (h : ∀ c ∈ stack, 32 ≤ c) :
    Shows prompt (Screen.puts ⟨[], []⟩ stack.reverse) stack := by
  induction stack with
  | nil => exact ⟨.inr rfl, nofun⟩
  | cons c stack ih =>
    obtain ⟨hc, h⟩ := List.forall_mem_cons.1 h
    rw [Screen.puts, List.reverse_cons, List.foldl_append]
    exact (ih h).push hc

namespace InStep

theorem erase (h : InStep theBeep maxlen buf prompt s (c :: stack)) :
    s.buf (s.pos - 1) = c ∧ InStep theBeep maxlen buf prompt s.erase stack := by
  have hpos : s.pos = stack.length + 1 := h.pos
  have htext := h.text
  rw [hpos, List.range_succ, List.map_append, List.reverse_cons] at htext
  obtain ⟨htext, hlast⟩ := List.append_inj' htext rfl
  have hpos' : s.pos - 1 = stack.length := by omega
  rw [← hpos'] at htext hlast
  exact ⟨List.head_eq_of_cons_eq hlast, hpos', lt_of_le_of_lt (Nat.sub_le _ _) h.room, htext,
    (List.forall_mem_cons.1 h.plain).2, h.rest, fun hb => (h.shown hb).pop⟩

section

variable (h : InStep theBeep maxlen buf prompt s stack)

include h

/-- The loops of ^U and ^W. -/
theorem eraseWhile (p : ℤ → Bool) :
    InStep theBeep maxlen buf prompt (s.eraseWhile p s.pos) (stack.dropWhile p) := by
  induction stack generalizing s with
  | nil =>
    rw [h.pos]
    exact h
  | cons c stack ih =>
    obtain ⟨hlast, herase⟩ := h.erase
    obtain ⟨n, hn⟩ : ∃ n, s.pos = n + 1 := ⟨_, h.pos⟩
    have ih := ih herase
    rw [show s.erase.pos = n from congrArg (· - 1) hn] at ih
    rw [hn, Kgets.eraseWhile, hlast, List.dropWhile_cons]
    by_cases hp : p c
    · rw [if_pos ⟨hn ▸ n.succ_pos, hp⟩, if_pos hp]
      exact ih
    · rw [if_neg fun hh => hp hh.2, if_neg hp]
      exact h

theorem push (hch : 32 ≤ ch) (hroom : s.pos < maxlen - 1) :
    InStep theBeep maxlen buf prompt
      { s with
        pos := s.pos + 1
        buf := update s.buf s.pos ch
        screen := s.screen.putch ch } (ch :: stack) where
  pos := congrArg (· + 1) h.pos
  room := Nat.add_lt_of_lt_sub hroom
  text := by
    rw [List.range_succ, List.map_append, map_range_update, h.text, List.reverse_cons]
    simp
  plain := List.forall_mem_cons.2 ⟨hch, h.plain⟩
  rest := fun i hi => (update_of_ne (by omega) _ _).trans (h.rest i hi)
  shown := fun hb => (h.shown hb).push hch

theorem rest_update {j : ℕ} (hj : j ≤ s.pos) : ∀ i ≥ maxlen, update s.buf j 0 i = buf i := by
  intro i hi
  have := h.room
  exact (update_of_ne (by omega) _ _).trans (h.rest i hi)

/-- ^R: the NUL, and the line once more, which has no NUL in it. -/
theorem reprint :
    InStep theBeep maxlen buf prompt
      { s with
        buf := update s.buf s.pos 0
        screen := (s.screen.puts [94, 82, 10]).puts s.text
        beeps := 0 } stack := by
  have htext : s.text = stack.reverse := by
    unfold Kgets.text
    rw [h.text, List.takeWhile_eq_self_iff]
    intro c hc
    have := h.plain c (List.mem_reverse.1 hc)
    exact decide_eq_true (by omega)
  rw [htext]
  exact ⟨h.pos, h.room, (map_range_update ..).trans h.text, h.plain, h.rest_update le_rfl,
    fun _ => .puts h.plain⟩

/-- A character that is not taken. -/
theorem beep :
    InStep theBeep maxlen buf prompt
      { s with screen := Lib.beep theBeep s.screen, beeps := s.beeps + 1 } stack := by
  refine { h with shown := fun hb => ?_ }
  obtain rfl : theBeep = true := hb.resolve_right (Nat.succ_ne_zero _)
  exact h.shown (.inl rfl)

/-- **One turn of the loop is one edit.** -/
theorem turn (hch : ¬ EndsLine ch) : ∃ s', s.turn theBeep maxlen ch = (s', false) ∧
    InStep theBeep maxlen buf prompt s' (edit maxlen stack ch) := by
  unfold EndsLine at hch
  have hpos := h.pos
  unfold Kgets.turn
  rw [if_neg (by omega)]
  by_cases hprint : 32 ≤ ch ∧ ch < 127 ∧ s.pos < maxlen - 1
  · rw [if_pos hprint, edit, if_pos (by omega), if_pos (by omega)]
    exact ⟨_, rfl, h.push hprint.1 hprint.2.2⟩
  rw [if_neg hprint]
  by_cases hback : (ch = 8 ∨ ch = 127) ∧ s.pos > 0
  · rw [if_pos hback, edit, if_neg (by omega), if_pos hback.1]
    obtain ⟨c, stack, rfl⟩ := List.exists_cons_of_length_pos (hpos ▸ hback.2)
    exact ⟨_, rfl, h.erase.2⟩
  rw [if_neg hback, if_neg (by omega)]
  by_cases h18 : ch = 18
  · rw [if_pos h18, h18]
    exact ⟨_, rfl, h.reprint⟩
  rw [if_neg h18]
  by_cases h21 : ch = 21
  · have herase := h.eraseWhile fun _ => true
    rw [List.dropWhile_eq_nil_iff.2 fun _ _ => rfl] at herase
    rw [if_pos h21, h21]
    exact ⟨_, rfl, herase⟩
  rw [if_neg h21]
  by_cases h23 : ch = 23
  · rw [if_pos h23, h23]
    exact ⟨_, rfl, (h.eraseWhile _).eraseWhile _⟩
  -- a printable character without room, a backspace on an empty line, or another one
  have hsame : edit maxlen stack ch = stack := by
    unfold edit
    rw [if_neg h21, if_neg h23]
    split
    · exact if_neg (by omega)
    · split
      · obtain rfl : stack = [] := List.eq_nil_of_length_eq_zero (by omega)
        rfl
      · rfl
  rw [if_neg h23, hsame]
  exact ⟨_, rfl, h.beep⟩

/-- **A run of the loop is a fold of the edit.** -/
theorem run {typed : List ℤ} (htyped : ∀ ch ∈ typed, ¬ EndsLine ch) (input : List ℤ) :
    ∃ s', InStep theBeep maxlen buf prompt s' (typed.foldl (edit maxlen) stack) ∧
      kgets theBeep maxlen (typed ++ input) s = kgets theBeep maxlen input s' := by
  induction typed generalizing s stack with
  | nil => exact ⟨s, h, rfl⟩
  | cons ch typed ih =>
    obtain ⟨hch, htyped⟩ := List.forall_mem_cons.1 htyped
    obtain ⟨s₁, hturn, h₁⟩ := h.turn hch
    obtain ⟨s', h', hrun⟩ := ih h₁ htyped
    refine ⟨s', h', ?_⟩
    rw [← hrun, List.cons_append, kgets, hturn]

/-- The end of the line. -/
theorem ends (hch : EndsLine ch) (input : List ℤ) :
    ∃ s', kgets theBeep maxlen (ch :: input) s = (s', true) ∧ s'.pos ≤ maxlen - 1 ∧
      IsString s'.buf (if ch = 3 then [] else stack.reverse) ∧ ∀ i ≥ maxlen, s'.buf i = buf i := by
  by_cases h3 : ch = 3
  · subst h3
    exact ⟨_, rfl, Nat.zero_le _, ⟨rfl, rfl⟩, h.rest_update (Nat.zero_le _)⟩
  · have hline : ch = 10 ∨ ch = 13 := hch.imp_right (Or.resolve_right · h3)
    rw [kgets, Kgets.turn, if_pos hline, if_neg h3]
    refine ⟨_, rfl, Nat.le_sub_one_of_lt h.room, ?_, h.rest_update le_rfl⟩
    rw [IsString, List.length_reverse, ← h.pos]
    exact ⟨(map_range_update ..).trans h.text, update_self ..⟩

end

end InStep

/-- **`kgets` is a stack machine.** On any characters before the one that ends the
line it waits for the next, at a position that is the height of the stack and is
in the buffer, and the line on the screen shows the stack, unless a character was
refused where there is no beep device and ^R has not printed the line since. With
the last character it returns, the buffer holds the stack, or nothing after ^C,
and the memory behind it is as it was. -/
theorem kgets_edits (theBeep : Bool) (maxlen : ℕ) (hmax : 1 ≤ maxlen) (buf : ℕ → ℤ)
    (prompt typed : List ℤ) (htyped : ∀ ch ∈ typed, ¬ EndsLine ch) :
    let start : Kgets := ⟨0, buf, ⟨prompt, []⟩, 0⟩
    let stack := typed.foldl (edit maxlen) []
    (∃ s, kgets theBeep maxlen typed start = (s, false) ∧ s.pos = stack.length ∧
      s.pos ≤ maxlen - 1 ∧ (theBeep ∨ s.beeps = 0 → Shows prompt s.screen stack)) ∧
    ∀ last, EndsLine last → ∀ input, ∃ s,
      kgets theBeep maxlen (typed ++ last :: input) start = (s, true) ∧ s.pos ≤ maxlen - 1 ∧
      IsString s.buf (if last = 3 then [] else stack.reverse) ∧
      ∀ i ≥ maxlen, s.buf i = buf i := by
  intro start stack
  have hstart : InStep theBeep maxlen buf prompt start [] :=
    ⟨rfl, hmax, rfl, nofun, fun _ _ => rfl, fun _ => ⟨.inl rfl, nofun⟩⟩
  constructor
  · obtain ⟨s, h, hrun⟩ := hstart.run htyped []
    rw [List.append_nil] at hrun
    exact ⟨s, hrun, h.pos, Nat.le_sub_one_of_lt h.room, h.shown⟩
  · intro last hlast input
    obtain ⟨s, h, hrun⟩ := hstart.run htyped (last :: input)
    rw [hrun]
    exact h.ends hlast input

/-- Two letters, ^U and one more letter, in a buffer of three bytes. -/
theorem kgets_edits_cleared : ∃ s,
    kgets true 3 [97, 98, 21, 99, 10] ⟨0, fun _ => 1, ⟨[], []⟩, 0⟩ = (s, true) ∧
      IsString s.buf [99] := by
  obtain ⟨s, hs, -, hbuf, -⟩ := (kgets_edits true 3 (by decide) (fun _ => 1) [] [97, 98, 21, 99]
    (by simp [EndsLine])).2 10 (.inl rfl) []
  exact ⟨s, hs, hbuf⟩

/-- **The screen can fall behind**: without a beep device a tab on the line `a`
prints the warning, and the line is empty at position 1. -/
theorem beep_hides_line :
    let s := (kgets false 4 [97, 9] ⟨0, fun _ => 0, ⟨[], []⟩, 0⟩).1
    s.pos = 1 ∧ s.screen.before = [] ∧ s.screen.behind = [] :=
  ⟨rfl, rfl, rfl⟩

end Lib

end Os161
