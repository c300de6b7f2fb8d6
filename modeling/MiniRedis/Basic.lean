import Mathlib.Algebra.Group.Int.Defs

/-! Byte strings, and what a C++ call can do instead of returning. -/

namespace MiniRedis

/-- `std::string`: any bytes, of any length. -/
abbrev Bytes := List UInt8

/-- The bytes of a string literal of the source. -/
def bytes (s : String) : Bytes := s.toList.map fun c => UInt8.ofNat c.toNat

/-- `"\r\n"`. -/
def crlf : Bytes := [13, 10]

/-- A call either returns, throws, or leaves what the language defines: an index
outside a vector, a remainder by zero. -/
inductive Fault where
  | undefined
  | exception (what : Bytes)
  deriving DecidableEq, Repr

abbrev Exec := Except Fault

@[simp] theorem Exec.pure_eq {α : Type} (a : α) : (pure a : Exec α) = .ok a := rfl

@[simp] theorem Exec.ok_bind {α β : Type} (a : α) (f : α → Exec β) :
    ((Except.ok a : Exec α) >>= f) = f a := rfl

@[simp] theorem Exec.error_bind {α β : Type} (e : Fault) (f : α → Exec β) :
    ((Except.error e : Exec α) >>= f) = .error e := rfl

@[simp] theorem Exec.bind_ok {α : Type} (x : Exec α) : (x >>= fun a => .ok a) = x := by
  cases x <;> rfl

@[simp] theorem Exec.throw_eq {α : Type} (e : Fault) : (throw e : Exec α) = .error e := rfl

theorem Exec.map_bind {α β γ : Type} (x : Exec α) (f : α → Exec β) (g : β → γ) :
    (x >>= f).map g = x >>= fun a => (f a).map g := by
  cases x <;> rfl

/-- A bind that returns has a first half that returns. -/
theorem Exec.bind_eq_ok {α β : Type} {x : Exec α} {f : α → Exec β} {b : β} :
    (x >>= f) = .ok b ↔ ∃ a, x = .ok a ∧ f a = .ok b := by
  cases x with
  | error e => simp
  | ok a => simp

/-- Nothing undefined happens, and what is returned satisfies `P`; an exception
is allowed. -/
def Exec.Sound {α : Type} (x : Exec α) (P : α → Prop) : Prop :=
  x ≠ .error .undefined ∧ ∀ a, x = .ok a → P a

theorem Exec.sound_ok {α : Type} {a : α} {P : α → Prop} (h : P a) : Exec.Sound (.ok a) P := by
  refine ⟨fun h => (by cases h), ?_⟩
  rintro _ ⟨⟩
  exact h

theorem Exec.sound_exception {α : Type} {what : Bytes} {P : α → Prop} :
    Exec.Sound (.error (.exception what)) P :=
  ⟨fun h => (by cases h), fun _ h => (by cases h)⟩

theorem Exec.sound_bind {α β : Type} {x : Exec α} {f : α → Exec β} {P : α → Prop} {Q : β → Prop}
    (hx : Exec.Sound x P) (hf : ∀ a, P a → Exec.Sound (f a) Q) : Exec.Sound (x >>= f) Q := by
  cases x with
  | error e =>
    refine ⟨fun h => hx.1 ?_, fun _ h => (by cases h)⟩
    rw [Exec.error_bind] at h
    rw [Except.error.inj h]
  | ok a => exact hf a (hx.2 a rfl)

/-- `v[i]` on a vector: an index outside it is undefined behaviour. -/
def at? {α : Type} (v : List α) (i : Nat) : Exec α :=
  match v[i]? with
  | some a => pure a
  | none => throw .undefined

/-- `h % size` on `size_t`. -/
def modSize (h size : Nat) : Exec Nat :=
  if size = 0 then throw .undefined else pure (h % size)

/-- `long long` to `size_t`.  Counters are not bounded above here, so this is
exact for every count below 2^63 and wraps for the negative ones. -/
def toSizeT (x : Int) : Nat := if 0 ≤ x then x.toNat else (x % 2 ^ 64).toNat

theorem at?_ok {α : Type} {v : List α} {i : Nat} {a : α} (h : v[i]? = some a) :
    at? v i = .ok a := by
  simp [at?, h]

theorem modSize_ok {h size : Nat} (hs : 0 < size) : modSize h size = .ok (h % size) := by
  simp [modSize, Nat.ne_of_gt hs]

theorem toSizeT_natCast (n : Nat) : toSizeT n = n := by
  simp [toSizeT]

end MiniRedis
