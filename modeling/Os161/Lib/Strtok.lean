import Os161.Lib.Model.Errno
import Mathlib.Data.List.TakeWhile
import Mathlib.Data.List.Forall2
/-!
# `strtok_r` and the menu

`strtok_r` cuts the words out of a string in place, and its context says where it
is. The calls on a string give its maximal runs of characters that are no
separators (`words`), and leave what stands behind the string alone. So the walk
of `menu_execute` over a line goes on where it was, though `cmd_dispatch` has cut
a command of it up and its function has written to the words (`strtok_words`).
-/

namespace Os161

namespace Lib

open List

/-! ## The programs -/

/-- `strtok_r`, on the bytes from some address on: the word, and the context and
the bytes that it leaves. -/
def strtokR (seps : List UInt8) (string context : Option ℕ) (mem : List UInt8) :
    Option ℕ × Option ℕ × List UInt8 :=
  match string.or context with
  | none => (none, none, mem)
  | some ctx =>
    -- skip any leading separators
    let head := ctx + ((mem.drop ctx).takeWhile fun c => c ≠ 0 ∧ c ∈ seps).length
    if mem.getD head 0 = 0 then (none, none, mem)
    else
      -- skip over word
      let tail := head + ((mem.drop head).takeWhile fun c => c ≠ 0 ∧ c ∉ seps).length
      if mem.getD tail 0 = 0 then (some head, none, mem)
      else (some head, some (tail + 1), mem.set tail 0)

/-- The loop over the words of a string, `NULL` from the second call on, with room
for `left` words. -/
def tokens (seps : List UInt8) (left : ℕ) (string context : Option ℕ) (mem : List UInt8) :
    Option (List ℕ) × Option ℕ × List UInt8 :=
  match strtokR seps string context mem with
  | (none, context, mem) => (some [], context, mem)
  | (some word, context, mem) =>
    match left with
    | 0 => (none, context, mem)
    | left + 1 =>
      let (words, context, mem) := tokens seps left none context mem
      (words.map (word :: ·), context, mem)

/-- The string at an address. -/
def stringAt (mem : List UInt8) (p : ℕ) : List UInt8 := (mem.drop p).takeWhile (· ≠ 0)

def maxmenuargs : ℕ := 16

/-- `" \t"`. -/
def blanks : List UInt8 := [32, 9]

/-- `";"`. -/
def semicolon : List UInt8 := [59]

/-- The bytes of the line, and the words of each command that was looked up. -/
structure Menu where
  line : List UInt8
  passed : List (List (List UInt8))

/-- What a function of the table does with its arguments, after so many commands:
its result and the line that it leaves, if it returns. -/
abbrev Func := ℕ → List ℕ → List UInt8 → Option (Option Errno × List UInt8)

section Programs

variable (names : List (List UInt8)) (func : Func)

/-- `cmd_dispatch`, with the names of the table. There is no result if the function
does not return. -/
def cmdDispatch (cmd : ℕ) (m : Menu) : Option (Option Errno) × Menu :=
  match tokens blanks maxmenuargs (some cmd) none m.line with
  | (none, _, line) => (some (some .E2BIG), { m with line })
  | (some args, _, line) =>
    let m : Menu := ⟨line, m.passed ++ [args.map (stringAt line)]⟩
    match args with
    | [] => (some none, m)
    | arg :: _ =>
      if stringAt line arg ∈ names.filter (· ≠ []) then
        match func m.passed.length args line with
        | none => (none, m)
        | some (result, line) => (some result, { m with line })
      else (some (some .EINVAL), m)

/-- The loop of `menu_execute`, for at most `n` commands: whether it has returned, or
else is in a function that does not return or has panicked. -/
def menuLoop (isargs : Bool) (n : ℕ) (string context : Option ℕ) (m : Menu) :
    Option Bool × Menu :=
  match strtokR semicolon string context m.line with
  | (none, _, line) => (some true, { m with line })
  | (some command, context, line) =>
    match n with
    | 0 => (none, { m with line })
    | n + 1 =>
      match cmdDispatch names func command { m with line } with
      | (none, m) => (some false, m)
      | (some result, m) =>
        if result ≠ none ∧ isargs then (some false, m)
        else menuLoop isargs n none context m

/-- `menu_execute`, for at most `n` commands. -/
def menuExecute (isargs : Bool) (n : ℕ) (line : List UInt8) : Option Bool × Menu :=
  menuLoop names func isargs n (some 0) none ⟨line ++ [0], []⟩

end Programs

/-! ## Words -/

/-- The maximal runs of characters that are no separators. -/
def words (seps s : List UInt8) : List (List UInt8) :=
  (s.splitOnP (· ∈ seps)).filter (· ≠ [])

variable {seps s w pre front back mem : List UInt8} {c : UInt8} {p n k : ℕ}
variable {ws : List (List UInt8)} {string ctx : Option ℕ} {args : List ℕ}

theorem words_skip (hpre : ∀ c ∈ pre, c ∈ seps) : words seps (pre ++ s) = words seps s := by
  induction pre with
  | nil => rfl
  | cons c pre ih =>
    obtain ⟨hc, hpre⟩ := forall_mem_cons.1 hpre
    rw [← ih hpre, words, cons_append, splitOnP_cons_eq_if_modifyHead,
      if_pos (decide_eq_true hc)]
    rfl

section

variable (hw : ∀ c ∈ w, c ∉ seps) (hne : w ≠ [])
include hw hne

theorem words_last : words seps w = [w] := by
  rw [words, splitOnP_eq_singleton fun c hc => decide_eq_false (hw c hc)]
  simp [hne]

theorem words_cut (hc : c ∈ seps) : words seps (w ++ c :: s) = w :: words seps s := by
  rw [words, splitOnP_append_cons_of_forall_mem (fun c hc => decide_eq_false (hw c hc)) c
    (decide_eq_true hc), filter_cons_of_pos (by simpa using hne)]
  rfl

end

/-- A string up to the first character of another kind. -/
theorem exists_span (q : UInt8 → Prop) [DecidablePred q] (s : List UInt8) :
    ∃ a b, s = a ++ b ∧ (∀ c ∈ a, q c) ∧ ∀ c ∈ b.head?, ¬ q c := by
  induction s with
  | nil => exact ⟨[], [], rfl, nofun, nofun⟩
  | cons c s ih =>
    by_cases hc : q c
    · obtain ⟨a, b, rfl, ha, hb⟩ := ih
      exact ⟨c :: a, b, rfl, forall_mem_cons.2 ⟨hc, ha⟩, hb⟩
    · exact ⟨[], c :: s, rfl, nofun, by simpa using hc⟩

/-- **The first word of a string**, if it has one, and what ends it. -/
theorem words_cases (seps s : List UInt8) :
    (words seps s = [] ∧ ∀ c ∈ s, c ∈ seps) ∨
      ∃ pre w u, s = pre ++ (w ++ u) ∧ (∀ c ∈ pre, c ∈ seps) ∧ w ≠ [] ∧ (∀ c ∈ w, c ∉ seps) ∧
        (u = [] ∧ words seps s = [w] ∨
          ∃ c s', u = c :: s' ∧ c ∈ seps ∧ words seps s = w :: words seps s') := by
  obtain ⟨pre, t, rfl, hpre, ht⟩ := exists_span (· ∈ seps) s
  rw [words_skip hpre]
  cases t with
  | nil => exact .inl ⟨rfl, by rwa [append_nil]⟩
  | cons c t =>
    obtain ⟨w, u, rfl, hw, hu⟩ := exists_span (· ∉ seps) t
    have hw : ∀ d ∈ c :: w, d ∉ seps := forall_mem_cons.2 ⟨ht c rfl, hw⟩
    have hne := cons_ne_nil c w
    refine .inr ⟨pre, c :: w, u, rfl, hpre, hne, hw, ?_⟩
    rw [← cons_append]
    cases u with
    | nil => exact .inl ⟨rfl, by rw [append_nil, words_last hw hne]⟩
    | cons d u =>
      have hd : d ∈ seps := not_not.1 (hu d rfl)
      exact .inr ⟨d, u, rfl, hd, words_cut hw hne hd⟩

/-! ## One call -/

/-- **Where a context is**: behind `front`, at the string `s`, or at no string. The
first `n` bytes are those up to the NUL of the string. -/
inductive Scans (n : ℕ) (front s back : List UInt8) : Option ℕ → List UInt8 → Prop
  | here (h0 : 0 ∉ s) (hn : n = front.length + s.length + 1) :
      Scans n front s back (some front.length) (front ++ (s ++ 0 :: back))
  | done (hs : s = []) (hn : n = front.length) : Scans n front s back none (front ++ back)

/-- A loop over the characters of a kind. -/
theorem takeWhile_behind {q : UInt8 → Bool} {a b : List UInt8} (ha : ∀ c ∈ a, q c)
    (hb : ∀ c ∈ b.head?, ¬ q c) : ((front ++ (a ++ b)).drop front.length).takeWhile q = a := by
  rw [drop_left, takeWhile_append_of_pos ha]
  cases b with
  | nil => rw [takeWhile_nil, append_nil]
  | cons c b => rw [takeWhile_cons_of_neg (hb c rfl), append_nil]

theorem getD_behind : (front ++ c :: back).getD front.length 0 = c := by
  simp

section Call

variable (hctx : string.or ctx = some front.length)
include hctx

/-- Only separators are left. -/
theorem strtokR_of_seps (hs : ∀ c ∈ s, c ≠ 0 ∧ c ∈ seps) :
    strtokR seps string ctx (front ++ (s ++ 0 :: back)) =
      (none, none, front ++ (s ++ 0 :: back)) := by
  have hskip : ((front ++ (s ++ 0 :: back)).drop front.length).takeWhile
      (fun c => decide (c ≠ 0 ∧ c ∈ seps)) = s :=
    takeWhile_behind (fun c hc => decide_eq_true (hs c hc)) (by simp)
  unfold strtokR
  rw [hctx]
  dsimp only
  rw [hskip, ← length_append, ← append_assoc, getD_behind, if_pos rfl]

/-- There is a word, and a separator or the NUL behind it. -/
theorem strtokR_of_word (rest : List UInt8) (hpre : ∀ c ∈ pre, c ≠ 0 ∧ c ∈ seps)
    (hne : w ≠ []) (hw : ∀ c ∈ w, c ≠ 0 ∧ c ∉ seps) (hc : c = 0 ∨ c ∈ seps) :
    strtokR seps string ctx (front ++ (pre ++ (w ++ c :: rest))) =
      (some (front ++ pre).length,
        if c = 0 then none else some (front ++ pre ++ (w ++ [0])).length,
        front ++ pre ++ (w ++ [0]) ++ rest) := by
  obtain ⟨d, v, rfl⟩ := exists_cons_of_ne_nil hne
  have hd := hw d mem_cons_self
  have hskip : ((front ++ (pre ++ (d :: v ++ c :: rest))).drop front.length).takeWhile
      (fun c => decide (c ≠ 0 ∧ c ∈ seps)) = pre :=
    takeWhile_behind (fun c hc => decide_eq_true (hpre c hc)) (by simp [hd.2])
  have hword : ((front ++ pre ++ (d :: v ++ c :: rest)).drop (front ++ pre).length).takeWhile
      (fun c => decide (c ≠ 0 ∧ c ∉ seps)) = d :: v :=
    takeWhile_behind (fun c hc => decide_eq_true (hw c hc)) (by simpa using Or.resolve_left hc)
  unfold strtokR
  rw [hctx]
  dsimp only
  rw [hskip, ← length_append, ← append_assoc front, hword,
    show (front ++ pre ++ (d :: v ++ c :: rest)).getD (front ++ pre).length 0 = d from getD_behind,
    if_neg hd.1, ← length_append, ← append_assoc (front ++ pre), getD_behind]
  by_cases h0 : c = 0
  · rw [if_pos h0, if_pos h0, h0]
    simp
  · rw [if_neg h0, if_neg h0]
    simp [Nat.add_assoc]

end Call

/-- **`strtok_r`** finds no word, or the first one, which it cuts off. -/
theorem strtokR_spec (seps : List UInt8) (h : Scans n front s back (string.or ctx) mem) :
    (words seps s = [] ∧ strtokR seps string ctx mem = (none, none, mem) ∧
      ∃ t, mem = front ++ t ++ back ∧ (front ++ t).length = n) ∨
    ∃ pre w s' ctx' mem', words seps s = w :: words seps s' ∧ 0 ∉ w ∧
      strtokR seps string ctx mem = (some (front ++ pre).length, ctx', mem') ∧
      Scans n (front ++ pre ++ (w ++ [0])) s' back ctx' mem' := by
  generalize hctx : string.or ctx = context at h
  cases h with
  | done hs hn =>
    subst hs
    refine .inl ⟨rfl, ?_, [], by rw [append_nil], by rw [append_nil, hn]⟩
    unfold strtokR
    rw [hctx]
  | here h0 hn =>
    have hzero : ∀ c ∈ s, c ≠ 0 := fun c hc => ne_of_mem_of_not_mem hc h0
    rcases words_cases seps s with ⟨hws, hseps⟩ | ⟨pre, w, u, rfl, hpre, hne, hw, hu⟩
    · exact .inl ⟨hws, strtokR_of_seps hctx fun c hc => ⟨hzero c hc, hseps c hc⟩, s ++ [0],
        by simp, by simp [hn, Nat.add_assoc]⟩
    · have hpre' : ∀ c ∈ pre, c ≠ 0 ∧ c ∈ seps :=
        fun c hc => ⟨hzero c (mem_append_left _ hc), hpre c hc⟩
      have hw' : ∀ c ∈ w, c ≠ 0 ∧ c ∉ seps :=
        fun c hc => ⟨hzero c (mem_append_right _ (mem_append_left _ hc)), hw c hc⟩
      have hw0 : 0 ∉ w := fun h => (hw' 0 h).1 rfl
      rw [append_assoc pre, append_assoc w]
      rcases hu with ⟨rfl, hws⟩ | ⟨c, s', rfl, hc, hws⟩
      · exact .inr ⟨pre, w, [], none, _, hws, hw0,
          strtokR_of_word hctx back hpre' hne hw' (.inl rfl),
          .done rfl (by simp [hn, Nat.add_assoc])⟩
      · have hrun := strtokR_of_word hctx (s' ++ 0 :: back) hpre' hne hw' (.inr hc)
        rw [if_neg (hzero c (by simp))] at hrun
        refine .inr ⟨pre, w, s', _, _, hws, hw0, hrun,
          .here (fun h => hzero 0 (by simp [h]) rfl) ?_⟩
        simp only [hn, length_append, length_cons, length_nil]
        omega

/-! ## All calls -/

/-- The bytes at `p` are a string and its NUL. -/
def Holds (mem : List UInt8) (p : ℕ) (w : List UInt8) : Prop :=
  0 ∉ w ∧ ∃ b, mem.drop p = w ++ 0 :: b

theorem Holds.lt (h : Holds mem p w) : p + w.length < mem.length := by
  obtain ⟨-, b, hb⟩ := h
  have hlen := congrArg length hb
  simp only [length_drop, length_append, length_cons] at hlen
  omega

theorem Holds.append (h : Holds front p w) (t : List UInt8) : Holds (front ++ t) p w := by
  have hlt := h.lt
  obtain ⟨h0, b, hb⟩ := h
  refine ⟨h0, b ++ t, ?_⟩
  rw [drop_append_of_le_length (by omega), hb, append_assoc, cons_append]

theorem Holds.stringAt_eq (h : Holds mem p w) : stringAt mem p = w := by
  obtain ⟨h0, b, hb⟩ := h
  rw [stringAt, hb, takeWhile_append_of_pos fun c hc => decide_eq_true (ne_of_mem_of_not_mem hc h0)]
  simp

/-- **The calls give the words**, one after the other, and then `NULL`. -/
theorem tokens_spec (h : Scans n front s back (string.or ctx) mem) :
    ∃ ptrs t, (∀ left ≥ (words seps s).length,
        tokens seps left string ctx mem = (some ptrs, none, front ++ t ++ back)) ∧
      (front ++ t).length = n ∧ ptrs.Pairwise (· < ·) ∧ (∀ p ∈ ptrs, front.length ≤ p) ∧
      Forall₂ (Holds (front ++ t)) ptrs (words seps s) := by
  generalize hws : words seps s = ws
  induction ws generalizing front s string ctx mem with
  | nil =>
    rcases strtokR_spec seps h with ⟨-, hrun, t, rfl, hlen⟩ | ⟨_, _, _, _, _, hcons, -⟩
    · refine ⟨[], t, fun left _ => ?_, hlen, .nil, nofun, .nil⟩
      rw [tokens, hrun]
    · rw [hws] at hcons
      cases hcons
  | cons w ws ih =>
    rcases strtokR_spec seps h with ⟨hnil, -⟩ | ⟨pre, w, s', ctx₁, mem₁, hcons, hw, hrun, h₁⟩
    · rw [hws] at hnil
      cases hnil
    rw [hws] at hcons
    cases hcons
    obtain ⟨ptrs, t, hnext, hlen, hsorted, hge, hwords⟩ := @ih _ _ _ none ctx₁ h₁ rfl
    simp only [append_assoc] at *
    have hlt : ∀ q ∈ ptrs, (front ++ pre).length < q := fun q hq => by
      have := hge q hq
      simp only [length_append, length_cons] at this ⊢
      omega
    refine ⟨(front ++ pre).length :: ptrs, pre ++ (w ++ ([0] ++ t)), fun left hle => ?_, hlen,
      pairwise_cons.2 ⟨hlt, hsorted⟩, forall_mem_cons.2 ⟨by simp, fun q hq => ?_⟩, .cons ?_ hwords⟩
    · cases left with
      | zero => cases hle
      | succ left =>
        rw [tokens, hrun]
        dsimp only
        rw [hnext left (Nat.le_of_succ_le_succ hle)]
        simp
    · have := hlt q hq
      rw [length_append] at this
      omega
    · refine ⟨hw, t, ?_⟩
      rw [← append_assoc front, drop_left, singleton_append]

/-! ## The menu -/

/-- The functions write to no byte of the line that is not in one of their words. -/
def Polite (func : Func) : Prop :=
  ∀ k args mem result mem', func k args mem = some (result, mem') →
    mem'.length = mem.length ∧
      ∀ i, (∀ p ∈ args, i < p ∨ p + (stringAt mem p).length < i) → mem'[i]? = mem[i]?

/-- What `cmd_dispatch` returns for the words of a command: it is blank, there is no
function of its name, or its function has returned or not. -/
def Answered (names : List (List UInt8)) (func : Func) (k : ℕ) (cmd : List (List UInt8))
    (result : Option (Option Errno)) : Prop :=
  cmd = [] ∧ result = some none ∨
    (∃ name ∈ cmd.head?, name ∉ names.filter (· ≠ []) ∧ result = some (some .EINVAL)) ∨
    ∃ args line, args.map (stringAt line) = cmd ∧ result = (func k args line).map Prod.fst

/-- The commands were all passed on, or the last one that was did not return or, with
`isargs`, failed. -/
def Ended (names : List (List UInt8)) (func : Func) (isargs : Bool)
    (cmds passed : List (List (List UInt8))) (ended : Bool) : Prop :=
  if ended then passed = cmds
  else passed <+: cmds ∧ ∃ cmd ∈ passed.getLast?, ∃ result,
    Answered names func passed.length cmd result ∧
      (result = none ∨ isargs = true ∧ result ≠ some none)

variable {names : List (List UInt8)} {func : Func} {isargs : Bool} {m : Menu}

/-- What the strings at some places are, and that they end before what is behind. -/
theorem strings_of_holds (h : Forall₂ (Holds front) args ws) (back : List UInt8) :
    args.map (stringAt (front ++ back)) = ws ∧
      ∀ p ∈ args, p + (stringAt (front ++ back) p).length < front.length := by
  induction h with
  | nil => exact ⟨rfl, nofun⟩
  | cons hw _ ih =>
    rw [map_cons, forall_mem_cons, (hw.append back).stringAt_eq, ih.1]
    exact ⟨rfl, hw.lt, ih.2⟩

/-- **`cmd_dispatch`** looks up the words of its command, and nothing behind it
changes. -/
theorem cmdDispatch_spec (hfunc : Polite func) (hline : m.line = front ++ (w ++ 0 :: back))
    (h0 : 0 ∉ w) (hle : (words blanks w).length ≤ maxmenuargs) :
    ∃ result front', cmdDispatch names func front.length m =
        (result, ⟨front' ++ back, m.passed ++ [words blanks w]⟩) ∧
      front'.length = front.length + w.length + 1 ∧
      Answered names func (m.passed ++ [words blanks w]).length (words blanks w) result := by
  obtain ⟨args, t, htokens, hlen, -, -, hwords⟩ :=
    @tokens_spec blanks _ _ _ _ _ (some front.length) none (.here h0 rfl)
  obtain ⟨hstrings, hends⟩ := strings_of_holds hwords back
  unfold cmdDispatch
  rw [hline, htokens _ hle]
  generalize front ++ t = front' at *
  dsimp only
  rw [hstrings]
  cases args with
  | nil => exact ⟨_, front', rfl, hlen, .inl ⟨hstrings.symm, rfl⟩⟩
  | cons arg args =>
    dsimp only
    split
    · cases hrun : func (m.passed ++ [words blanks w]).length (arg :: args) (front' ++ back) with
      | none => exact ⟨none, front', rfl, hlen, .inr (.inr ⟨_, _, hstrings, by rw [hrun]; rfl⟩)⟩
      | some r =>
        obtain ⟨result, line'⟩ := r
        obtain ⟨hlen', hsame⟩ := hfunc _ _ _ _ _ hrun
        have hdrop : line'.drop front'.length = back := by
          refine ext_getElem? fun i => ?_
          rw [getElem?_drop, hsame _ fun p hp => .inr ?_, getElem?_append_right (by omega),
            Nat.add_sub_cancel_left]
          exact Nat.lt_add_right i (hends p hp)
        rw [length_append] at hlen'
        refine ⟨some result, line'.take front'.length, ?_, ?_,
          .inr (.inr ⟨_, _, hstrings, by rw [hrun]; rfl⟩)⟩
        · rw [← hdrop, take_append_drop]
        · rw [length_take, ← hlen]
          omega
    · next hnew =>
      refine ⟨_, front', rfl, hlen, .inr (.inl ⟨_, ?_, hnew, rfl⟩)⟩
      rw [← hstrings]
      rfl

/-- What stands before the string does not matter. -/
theorem Scans.replace {a b t : List UInt8} (h : Scans n a s back ctx mem) (hmem : mem = a ++ t)
    (hlen : b.length = a.length) : Scans n b s back ctx (b ++ t) := by
  cases h with
  | here h0 hn =>
    obtain rfl := append_cancel_left hmem
    rw [← hlen] at hn ⊢
    exact .here h0 hn
  | done hs hn =>
    obtain rfl := append_cancel_left hmem
    exact .done hs (hn.trans hlen.symm)

theorem Scans.exists_append (h : Scans n front s back ctx mem) : ∃ t, mem = front ++ t := by
  cases h with
  | here | done => exact ⟨_, rfl⟩

/-- **The loop of `menu_execute`** passes on the commands that are left of the line. -/
theorem menuLoop_spec (hfunc : Polite func) (h : Scans n front s back (string.or ctx) m.line)
    (hargs : ∀ cmd ∈ words semicolon s, (words blanks cmd).length ≤ maxmenuargs)
    (hk : (words semicolon s).length ≤ k) :
    ∃ ended m', menuLoop names func isargs k string ctx m = (some ended, m') ∧
      Ended names func isargs (m.passed ++ (words semicolon s).map (words blanks)) m'.passed
        ended := by
  generalize hws : words semicolon s = ws at *
  induction ws generalizing front s string ctx m k with
  | nil =>
    rcases strtokR_spec semicolon h with ⟨-, hrun, -⟩ | ⟨_, _, _, _, _, hcons, -⟩
    · rw [menuLoop, hrun]
      exact ⟨true, _, rfl, (append_nil _).symm⟩
    · rw [hws] at hcons
      cases hcons
  | cons w ws ih =>
    rcases strtokR_spec semicolon h with ⟨hnil, -⟩ | ⟨pre, w, s', ctx₁, mem₁, hcons, hw, hrun, h₁⟩
    · rw [hws] at hnil
      cases hnil
    rw [hws] at hcons
    cases hcons
    obtain ⟨hlen, hargs⟩ := forall_mem_cons.1 hargs
    obtain ⟨k, rfl⟩ : ∃ k', k = k' + 1 := ⟨k - 1, by rw [length_cons] at hk; omega⟩
    obtain ⟨t, rfl⟩ := h₁.exists_append
    have hline : front ++ pre ++ (w ++ [0]) ++ t = front ++ pre ++ (w ++ 0 :: t) := by simp
    obtain ⟨result, front', hdispatch, hfront, hanswer⟩ :=
      cmdDispatch_spec (m := ⟨_, m.passed⟩) hfunc hline hw hlen
    -- the walk goes on behind the command
    have h₂ := h₁.replace (b := front') rfl (by
      simp only [hfront, length_append, length_cons, length_nil]
      omega)
    rw [map_cons, append_cons]
    have hlast : words blanks w ∈ (m.passed ++ [words blanks w]).getLast? := by simp
    rw [menuLoop, hrun]
    dsimp only
    rw [hdispatch]
    cases result with
    | none => exact ⟨false, _, rfl, prefix_append _ _, _, hlast, _, hanswer, .inl rfl⟩
    | some result =>
      dsimp only
      by_cases hfail : result ≠ none ∧ isargs = true
      · rw [if_pos hfail]
        exact ⟨false, _, rfl, prefix_append _ _, _, hlast, _, hanswer,
          .inr ⟨hfail.2, by simpa using hfail.1⟩⟩
      · rw [if_neg hfail]
        exact @ih _ _ _ none ctx₁ ⟨_, m.passed ++ [words blanks w]⟩ h₂ rfl hargs
          (Nat.le_of_succ_le_succ hk)

/-- **`strtok_r` enumerates the words.** Its calls on a string, until there is no
word, give the places of the maximal runs in order, each of them now a string of
its own, nothing around the string has changed, and further calls give `NULL`. The
commands of a line are passed on in order, each with its own words, up to one whose
function does not return or, with `isargs`, one that fails. -/
theorem strtok_words :
    (∀ (seps front s back : List UInt8), 0 ∉ s → ∀ context, ∃ ptrs t,
      (∀ n ≥ (words seps s).length,
        tokens seps n (some front.length) context (front ++ (s ++ 0 :: back)) =
          (some ptrs, none, front ++ t ++ back)) ∧
      (∀ mem, strtokR seps none none mem = (none, none, mem)) ∧
      (front ++ t).length = front.length + s.length + 1 ∧ ptrs.Pairwise (· < ·) ∧
      (∀ p ∈ ptrs, front.length ≤ p) ∧ Forall₂ (Holds (front ++ t)) ptrs (words seps s)) ∧
    ∀ (names : List (List UInt8)) (func : Func) (isargs : Bool) (line : List UInt8),
      0 ∉ line → Polite func →
      (∀ cmd ∈ words semicolon line, (words blanks cmd).length ≤ maxmenuargs) →
      ∀ n ≥ (words semicolon line).length, ∃ ended m,
        menuExecute names func isargs n line = (some ended, m) ∧
        Ended names func isargs ((words semicolon line).map (words blanks)) m.passed ended := by
  constructor
  · intro seps front s back h0 context
    obtain ⟨ptrs, t, htokens, hspec⟩ :=
      @tokens_spec seps _ _ _ _ _ (some front.length) context (.here h0 rfl)
    exact ⟨ptrs, t, htokens, fun _ => rfl, hspec⟩
  · intro names func isargs line h0 hfunc hargs n hn
    exact @menuLoop_spec _ [] [] _ _ (some 0) none names func isargs ⟨line ++ [0], []⟩ hfunc
      (.here h0 rfl) hargs hn

/-- Two commands, the first with two words. -/
theorem strtok_words_menu : ∃ m,
    menuExecute [[97]] (fun _ _ line => some (none, line)) false 2 [97, 32, 98, 59, 32, 97] =
      (some true, m) ∧ m.passed = [[[97], [98]], [[97]]] := by
  obtain ⟨ended, m, hrun, hended⟩ := strtok_words.2 [[97]] (fun _ _ line => some (none, line)) false
    [97, 32, 98, 59, 32, 97] (by decide)
    (fun _ _ _ _ _ h => by cases h; exact ⟨rfl, fun _ _ => rfl⟩) (by decide) 2 (by decide)
  cases ended with
  | false =>
    obtain ⟨-, _, -, _, hanswer, rfl | ⟨h, -⟩⟩ := hended
    · rcases hanswer with ⟨-, h⟩ | ⟨_, -, -, h⟩ | ⟨_, _, -, h⟩ <;> cases h
    · cases h
  | true => exact ⟨m, hrun, hended⟩

/-- **A command on the kernel's command line that fails is the last one.** -/
theorem isargs_stops :
    (menuExecute [] (fun _ _ _ => none) true 2 [97, 59, 98]).2.passed = [[[97]]] := by decide

end Lib

end Os161
