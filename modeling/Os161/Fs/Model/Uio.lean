import Os161.Common.Wp
import Os161.Userprog.Model.Loadelf
/-!
# `kern/userprog/uio.c`, for the file systems

A `uio` on its way through the file system and the disk. `off_t` is an `int`
of 32 bits, `size_t` and the counters are unsigned words: they are kept as
numbers, wrapped where the source computes them.
-/

namespace Os161

namespace Fs

open Userprog (UioRw)

/-- An `off_t`, of 32 bits. -/
def off32 (n : ℤ) : ℤ := (n + 2 ^ 31) % 2 ^ 32 - 2 ^ 31

/-- A `u_int32_t`. -/
def word32 (n : ℤ) : ℕ := (n % 2 ^ 32).toNat

theorem off32_eq {n : ℤ} (h0 : -2 ^ 31 ≤ n) (h1 : n < 2 ^ 31) : off32 n = n := by
  unfold off32
  omega

theorem word32_eq {n : ℕ} (h : n < 2 ^ 32) : word32 n = n := by
  unfold word32
  omega

/-- `struct uio`. The buffer is what lies from `iov_base` on, so that `iov_len`
is its length, and the bytes that have gone through it already. Of a buffer of
the user, `user` says how many bytes from `iov_base` on can be reached. -/
structure Uio where
  moved : List UInt8
  base : List UInt8
  user : Option ℕ
  offset : ℤ
  resid : ℕ
  rw : UioRw

/-- `mk_kuio`. -/
def mkKuio (kbuf : List UInt8) (pos : ℤ) (rw : UioRw) : Uio where
  moved := []
  base := kbuf
  user := none
  offset := pos
  resid := kbuf.length
  rw := rw

/-- A copy of `size` bytes from or to the user faults. -/
def Uio.Faults (u : Uio) (size : ℕ) : Prop := ∃ n ∈ u.user, n < size

instance (u : Uio) (size : ℕ) : Decidable (u.Faults size) :=
  match h : u.user with
  | none => isFalse fun ⟨n, hn, _⟩ => by simp [h] at hn
  | some m => decidable_of_iff (m < size) (by simp [Uio.Faults, h])

/-- What `uiomove` does to the `uio` for the bytes that have gone. -/
def Uio.advance (u : Uio) (bytes : List UInt8) : Uio where
  moved := u.moved ++ bytes
  base := u.base.drop bytes.length
  user := u.user.map (· - bytes.length)
  offset := off32 (u.offset + bytes.length)
  resid := word32 (u.resid - bytes.length)
  rw := u.rw

/-- A request on its way: what it works on, and its `uio`. -/
structure Io (σ : Type) where
  fs : σ
  uio : Uio

variable {σ : Type}

/-- The part of a request that it works on. -/
def Io.fsPart : Prog.Part (Io σ) σ where
  get r := r.fs
  put s r := { r with fs := s }

/-- Run a request with a `uio` of its own. -/
def withUio {α : Type} (u : Uio) (x : Prog (Io σ) Errno α) : Prog σ Errno Uio := fun s =>
  match x ⟨s, u⟩ with
  | .ok _ r => .ok r.uio r.fs
  | .error e r => .error e r.fs

theorem wp_withUio {α : Type} {u : Uio} {x : Prog (Io σ) Errno α} {Q : Uio → σ → Prop}
    {E : Stop Errno → σ → Prop} {s : σ} :
    Prog.wp (withUio u x) Q E s ↔
      Prog.wp x (fun _ r => Q r.uio r.fs) (fun e r => E e r.fs) ⟨s, u⟩ := by
  unfold Prog.wp withUio
  cases x ⟨s, u⟩ <;> rfl

/-- The loop of `uiomove`, which makes progress in every round: at most `n`
bytes go from `ptr` to the `uio`, or from the `uio` to the buffer at `ptr`. It
returns the bytes that have gone. -/
def uiomoveLoop : ℕ → List UInt8 → ℕ → Prog (Io σ) Errno (List UInt8)
  | 0, _, _ => pure []
  | fuel + 1, ptr, n => do
    let r ← get
    if 0 < n ∧ 0 < r.uio.resid then do
      let size := min r.uio.base.length n
      -- panic("uiomove: size reached 0\n")
      Prog.assert (size ≠ 0)
      Prog.failIf (r.uio.Faults size) .EFAULT
      let bytes := match r.uio.rw with
        | .read => ptr.take size
        | .write => r.uio.base.take size
      set { r with uio := r.uio.advance bytes }
      let rest ← uiomoveLoop fuel (ptr.drop size) (n - size)
      pure (bytes ++ rest)
    else pure []

/-- `uiomove`. -/
def uiomove (ptr : List UInt8) (n : ℕ) : Prog (Io σ) Errno (List UInt8) := uiomoveLoop n ptr n

/-- The loop of `uiomovezeros`, sixteen bytes a round. -/
def uiomovezerosLoop : ℕ → ℕ → Prog (Io σ) Errno Unit
  | 0, _ => pure ()
  | fuel + 1, n =>
    if 0 < n then do
      let amt := if 16 > n then n else 16
      let _ ← uiomove (List.replicate 16 0) amt
      uiomovezerosLoop fuel (n - amt)
    else pure ()

/-- `uiomovezeros`. -/
def uiomovezeros (n : ℕ) : Prog (Io σ) Errno Unit := do
  let r ← get
  Prog.assert (r.uio.rw = .read)
  uiomovezerosLoop n n

end Fs

end Os161
