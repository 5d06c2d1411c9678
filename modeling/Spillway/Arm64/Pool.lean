import Spillway.Arm64.Register

/-!
# The pool of scratch registers

The pool hands out `x0` to `x28`, always the lowest one that is free. Three of them are reserved and
never become free.
-/

namespace Spillway.Arm64

/-- How many registers the pool has. -/
def Pool.size : Nat := 29

/-- A register of the pool. -/
abbrev PoolReg := Fin Pool.size

namespace PoolReg

/-- The register itself. -/
def reg (i : PoolReg) : Reg := .x i

/-- Whether a register is never handed out. -/
def isReserved (i : PoolReg) : Bool := 16 ≤ i.val && i.val ≤ 18

/-- The register of the pool with this number. -/
def ofNumber (n : Nat) : Except Trap PoolReg :=
  if h : n < Pool.size then .ok ⟨n, h⟩ else .error (.outOfBounds Pool.size n)

/-- All registers of the pool, in order. -/
def all : List PoolReg := List.finRange Pool.size

end PoolReg

/-- The register of the pool that passes an argument. -/
def Argument.pool (i : Argument) : PoolReg :=
  i.castLE (by decide)

/-- Which registers of the pool are in use. -/
structure Pool where
  busy : Vector Bool Pool.size
  deriving DecidableEq

namespace Pool

/-- The pool in which only the reserved registers are in use. -/
def fresh : Pool := ⟨Vector.ofFn PoolReg.isReserved⟩

instance : Inhabited Pool := ⟨fresh⟩

/-- Whether a register is in use. -/
def isBusy (p : Pool) (i : PoolReg) : Bool := p.busy[i]

/-- Takes a register into use. -/
def occupy (p : Pool) (i : PoolReg) : Pool := ⟨p.busy.set i true⟩

/-- Gives a register back; a reserved one stays in use. -/
def release (p : Pool) (i : PoolReg) : Pool :=
  if i.isReserved then p else ⟨p.busy.set i false⟩

/-- Hands out the lowest register that is free. -/
def acquire? (p : Pool) : Option (PoolReg × Pool) :=
  (PoolReg.all.find? fun i => !p.isBusy i).map fun i => (i, p.occupy i)

/-- The registers in use, lowest first. -/
def busyRegs (p : Pool) : List PoolReg := PoolReg.all.filter p.isBusy

@[simp] theorem isBusy_fresh (i : PoolReg) : fresh.isBusy i = i.isReserved := by
  simp [fresh, isBusy]

@[simp] theorem isBusy_occupy (p : Pool) (i j : PoolReg) :
    (p.occupy i).isBusy j = (decide (j = i) || p.isBusy j) := by
  by_cases h : j = i
  · simp [occupy, isBusy, h]
  · have hne : i.val ≠ j.val := fun e => h (Fin.ext e.symm)
    simp [occupy, isBusy, h, hne]

theorem isBusy_release (p : Pool) (i j : PoolReg) :
    (p.release i).isBusy j = if j = i ∧ i.isReserved = false then false else p.isBusy j := by
  unfold release
  by_cases hr : i.isReserved = true
  · simp [hr]
  · by_cases h : j = i
    · simp [hr, h, isBusy]
    · have hne : i.val ≠ j.val := fun e => h (Fin.ext e.symm)
      simp [hr, h, isBusy, hne]

/-- What is handed out was free. -/
theorem isBusy_of_acquire? {p q : Pool} {i : PoolReg} (h : p.acquire? = some (i, q)) :
    p.isBusy i = false ∧ q = p.occupy i := by
  obtain ⟨j, hj, he⟩ := Option.map_eq_some_iff.1 h
  obtain ⟨rfl, rfl⟩ := Prod.mk.inj he
  exact ⟨by simpa using List.find?_some hj, rfl⟩

/-- Nothing is handed out exactly when every register is in use. -/
theorem acquire?_eq_none_iff (p : Pool) : p.acquire? = none ↔ ∀ i, p.isBusy i = true := by
  simp [acquire?, PoolReg.all]

end Pool

end Spillway.Arm64
