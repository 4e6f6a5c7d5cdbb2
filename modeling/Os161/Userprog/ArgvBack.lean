import Os161.Userprog.InitialStack
import Mathlib.Data.List.TakeWhile
/-!
# An argument vector that is read back

`sys_execv` counts its arguments by going through them to a NULL pointer, but
neither it nor `runprogram` writes one behind the pointers that they leave for
a new program. What follows the last pointer is the first string. It counts as
NULL if it is empty and the three bytes of its padding, which nothing writes,
happen to be zero (`argv_reads_back_iff`).
-/

namespace Os161

namespace Userprog

open Vm Prog

variable {env : Env} {m m' : Machine} {q lastpaddr entrypoint : UInt32} {as : AddrSpace}
  {argv : List (List UInt8)} {tf : Trapframe}

/-- **A vector of arguments is read back**: there are pointers to the strings
from `args` on, and a NULL pointer behind them, at an address that a program
can read. -/
structure ReadsBack (m : Machine) (args : UInt32) (argv : List (List UInt8)) : Prop where
  pointers : ∀ i arg, argv[i]? = some arg → ∃ a : UInt32, a ≠ 0 ∧
    slice m.look (args.toNat + 4 * i) 4 = (wordBytes a).map some ∧
    slice m.look a.toNat (cstr arg).length = (cstr arg).map some
  user : args.toNat + 4 * argv.length + 4 ≤ userTop.toNat
  null : slice m.look (args.toNat + 4 * argv.length) 4 = (wordBytes 0).map some

/-- The first argument is the empty string, and the padding behind it is zero
before it is copied. -/
def EmptyFirst (m : Machine) (argv : List (List UInt8)) : Prop :=
  ∃ arg rest, argv = arg :: rest ∧ cstr arg = [0] ∧
    slice m.look (userStack.toNat - depth argv + 1) 3 = [some 0, some 0, some 0]

theorem slice_four {α : Type} (f : ℕ → α) (o : ℕ) :
    slice f o 4 = [f o, f (o + 1), f (o + 2), f (o + 3)] := rfl

theorem slice_three {α : Type} (f : ℕ → α) (o : ℕ) :
    slice f o 3 = [f o, f (o + 1), f (o + 2)] := rfl

theorem wordBytes_zero : (wordBytes 0).map some = [some 0, some 0, some 0, some 0] := rfl

/-- The byte `k` of the block of the first argument. -/
theorem StackDone.look_first {arg : List UInt8} {rest : List (List UInt8)} {k : ℕ}
    (h : StackDone q as lastpaddr m (arg :: rest) entrypoint tf m') (hk : k < blockSize arg) :
    m'.look (userStack.toNat - depth (arg :: rest) + k) =
      ((cstr arg).map some).getD k (m.look (userStack.toNat - depth (arg :: rest) + k)) := by
  obtain ⟨pointers, hpointers, hlook⟩ := h.look
  have htop : userStack.toNat = 2 ^ 31 := rfl
  have hroom := h.room
  have hcons := depth_cons arg rest
  have hlen : pointers.length = (arg :: rest).length := by
    rw [← length_argAddrs (2 ^ 31) (arg :: rest), ← hpointers, List.length_map]
  rw [hlook _ (by omega), pointersView_of_ge (by omega) (by omega)]
  unfold argsView patch
  rw [if_pos (by omega), htop, Nat.add_sub_cancel_left, argsView_of_lt (by omega)]

/-- **What follows the pointers is NULL** only if the first string is empty. -/
theorem StackDone.null_iff {arg : List UInt8} {rest : List (List UInt8)}
    (h : StackDone q as lastpaddr m (arg :: rest) entrypoint tf m') :
    slice m'.look (userStack.toNat - depth (arg :: rest)) 4 = (wordBytes 0).map some ↔
      cstr arg = [0] ∧
        slice m.look (userStack.toNat - depth (arg :: rest) + 1) 3 = [some 0, some 0, some 0] := by
  have hsize := blockSize_spec arg
  have hlen := length_cstr arg
  have hfirst := fun k (hk : k < 4) => h.look_first (k := k) (by omega)
  rw [slice_four, slice_three, wordBytes_zero]
  cases hword : arg.takeWhile (· ≠ 0) with
  | nil =>
    have hempty : cstr arg = [0] := by
      unfold cstr
      rw [hword]
      rfl
    have h0 := hfirst 0 (by omega)
    have h1 := hfirst 1 (by omega)
    have h2 := hfirst 2 (by omega)
    have h3 := hfirst 3 (by omega)
    simp only [Nat.add_zero] at h0
    rw [h0, h1, h2, h3]
    simp [hempty, Nat.add_assoc]
  | cons b tl =>
    have hb : b ≠ 0 := by
      have := List.mem_takeWhile_imp (hword ▸ List.mem_cons_self)
      simpa using this
    have hcstr : cstr arg = b :: (tl ++ [0]) := by
      unfold cstr
      rw [hword]
      rfl
    have h0 := hfirst 0 (by omega)
    simp only [Nat.add_zero] at h0
    rw [h0]
    simp [hcstr, hb]

theorem StackDone.readsBack_iff (h : StackDone q as lastpaddr m argv entrypoint tf m') :
    ReadsBack m' tf.tfA1 argv ↔ EmptyFirst m argv := by
  have htop : userStack.toNat = 2 ^ 31 := rfl
  have huser : userTop.toNat = 2 ^ 31 := rfl
  have hsp := h.sp
  have hroom := h.room
  have hargs : tf.tfA1 = tf.tfSp := by
    rw [h.tf]
    rfl
  rw [hargs]
  cases argv with
  | nil =>
    -- the vector is at the end of user space
    constructor
    · rintro ⟨-, hin, -⟩
      have hzero : depth [] = 0 := rfl
      omega
    · rintro ⟨arg, rest, he, -⟩
      cases he
  | cons arg rest =>
    have hcons := depth_cons arg rest
    have hsize := blockSize_spec arg
    have hlen := length_cstr arg
    have hnull : tf.tfSp.toNat + 4 * (arg :: rest).length =
        userStack.toNat - depth (arg :: rest) := by omega
    constructor
    · rintro ⟨-, -, hback⟩
      rw [hnull, h.null_iff] at hback
      exact ⟨arg, rest, rfl, hback.1, hback.2⟩
    · rintro ⟨arg', rest', he, hempty, hpad⟩
      obtain ⟨rfl, rfl⟩ := List.cons.inj he
      obtain ⟨-, a, ha⟩ := h.layout
      refine ⟨fun i s hi => ?_, by omega, ?_⟩
      · obtain ⟨hpointer, hlow, -, hstring, -⟩ := ha i s hi
        refine ⟨a i, fun h0 => ?_, hpointer, hstring⟩
        rw [h0] at hlow
        simp only [List.length_cons, UInt32.toNat_zero] at hlow
        omega
      · rw [hnull, h.null_iff]
        exact ⟨hempty, hpad⟩

/-- **When an argument vector survives `execv`**, or `runprogram`, whose
`copyout`s have all succeeded. -/
theorem argv_reads_back_iff (hm : StackReady q as lastpaddr m) :
    (∀ tf m', execStack env argv userStack entrypoint m = .ok tf m' →
      (ReadsBack m' tf.tfA1 argv ↔ EmptyFirst m argv)) ∧
    (∀ tf results m', runStack env argv userStack entrypoint m = .ok (tf, results) m' →
      (∀ x ∈ results, x = .ok ()) → (ReadsBack m' tf.tfA1 argv ↔ EmptyFirst m argv)) := by
  refine ⟨fun tf m' hrun => ?_, fun tf results m' hrun hall => ?_⟩
  · exact ((wp_of_ok hrun).1 (wp_execStack hm argv entrypoint)).readsBack_iff
  · exact ((wp_of_ok hrun).1 (wp_runStack hm argv entrypoint) hall).readsBack_iff

/-- One empty argument, on a stack that was all zeros. -/
theorem argv_reads_back_empty :
    ∃ entry m tf m', loadElf takesTurns (.onePiece twoSegments) (newSpace ⟨0x30000, 0x400000⟩) =
        .ok entry m ∧ execStack takesTurns [[0]] userStack entry m = .ok tf m' ∧
      ReadsBack m' tf.tfA1 [[0]] := by
  obtain ⟨entry, m, hload, hp⟩ := exists_ok_of (loadElf takesTurns (.onePiece twoSegments))
    (newSpace ⟨0x30000, 0x400000⟩)
    (fun entry m => passes (execStack takesTurns [[0]] userStack entry) (fun _ _ => true) m ∧
      slice m.look (userStack.toNat - 3) 3 = [some 0, some 0, some 0]) (by decide +kernel)
  obtain ⟨as, hready⟩ := stackReady_of_twoSegments hload
  obtain ⟨tf, m', hrun, -⟩ := exists_of_passes hp.1
  refine ⟨entry, m, tf, m', hload, hrun, ((argv_reads_back_iff hready).1 tf m' hrun).2 ?_⟩
  exact ⟨[0], [], rfl, rfl, hp.2⟩

/-- **The vector of one argument is not read back**: its string `"a"` stands
where the NULL pointer should be. -/
theorem argv_without_null :
    ∃ entry m tf m', loadElf takesTurns (.onePiece twoSegments) (newSpace ⟨0x30000, 0x400000⟩) =
        .ok entry m ∧ execStack takesTurns [[0x61, 0]] userStack entry m = .ok tf m' ∧
      slice m'.look (tf.tfA1.toNat + 4) 4 = [some 0x61, some 0, some 0, some 0] ∧
      ¬ ReadsBack m' tf.tfA1 [[0x61, 0]] := by
  obtain ⟨entry, m, hload, hp⟩ := exists_ok_of (loadElf takesTurns (.onePiece twoSegments))
    (newSpace ⟨0x30000, 0x400000⟩)
    (fun entry m => passes (execStack takesTurns [[0x61, 0]] userStack entry)
      (fun tf m' => slice m'.look (tf.tfA1.toNat + 4) 4 == [some 0x61, some 0, some 0, some 0]) m)
    (by decide +kernel)
  obtain ⟨tf, m', hrun, hword⟩ := exists_of_passes hp
  rw [beq_iff_eq] at hword
  refine ⟨entry, m, tf, m', hload, hrun, hword, fun hback => ?_⟩
  have hnull := hback.null
  rw [show tf.tfA1.toNat + 4 * [[(0x61 : UInt8), 0]].length = tf.tfA1.toNat + 4 from rfl, hword,
    wordBytes_zero] at hnull
  cases hnull

end Userprog

end Os161
