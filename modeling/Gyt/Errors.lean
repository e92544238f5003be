import Gyt.Foundation.Text
import Gyt.Foundation.Utf8

/-!
# Errors and results

The error type that every fallible operation of `gyt` returns, and the inversion rules for its
`Result` monad.  A message is kept as the pieces its format string is assembled from, so that two
messages agree exactly if the same format string was filled with the same values.
-/

namespace Gyt

/-- A Rust string, as the list of its characters. -/
abbrev Str := List Char

instance : LawfulBEq Str := inferInstance

/-- A byte string. -/
abbrev Bytes := List UInt8

/-- The kinds of `io::Error` that the modelled file operations raise. -/
inductive IoError where
  | notFound
  | notADirectory
  | isADirectory
  | invalidData
  | alreadyExists
  | other
  deriving DecidableEq, Repr

/-- One piece of a formatted message. -/
inductive Piece where
  /-- Text of the format string. -/
  | lit (s : String)
  /-- A string printed with `{}`. -/
  | str (s : Str)
  /-- A string printed with `{:?}`. -/
  | debug (s : Str)
  /-- A number printed with `{}`. -/
  | num (n : ℤ)
  /-- A number printed with `{:o}`. -/
  | oct (n : ℕ)
  /-- A byte printed with `{:#x}`. -/
  | hex (b : UInt8)
  /-- A byte printed with `{:02x}`. -/
  | hex02 (b : UInt8)
  /-- A byte slice printed with `{:?}`. -/
  | bytes (b : Bytes)
  /-- An error of the operating system printed with `{}`. -/
  | io (e : IoError)
  deriving DecidableEq, Repr

instance : Coe String Piece := ⟨Piece.lit⟩

/-- A formatted message. -/
abbrev Msg := List Piece

/-- The error enumeration `GytError`. -/
inductive GytError where
  | io (e : IoError)
  | parse (m : Msg)
  | repo (m : Msg)
  | object (m : Msg)
  | index (m : Msg)
  | refs (m : Msg)
  | net (m : Msg)
  | notFound (m : Msg)
  | invalidArgument (m : Msg)
  | unsupported (m : Msg)
  | ci (m : Msg)
  deriving DecidableEq, Repr

def GytError.display : GytError → Msg
  | .io e => ["io: ", .io e]
  | .parse m => "parse: " :: m
  | .repo m => "repo: " :: m
  | .object m => "object: " :: m
  | .index m => "index: " :: m
  | .refs m => "refs: " :: m
  | .net m => "net: " :: m
  | .notFound m => "not found: " :: m
  | .invalidArgument m => "invalid argument: " :: m
  | .unsupported m => "unsupported: " :: m
  | .ci m => "ci: " :: m

/-- What an operation that can fail with a `GytError` returns. -/
abbrev Result (α : Type) := Except GytError α

section Inversion

variable {ε α β : Type}

/-- A sequence of two computations succeeds only if both do. -/
lemma bind_eq_ok {x : Except ε α} {f : α → Except ε β} {b : β} :
    (x >>= f) = .ok b ↔ ∃ a, x = .ok a ∧ f a = .ok b := by
  cases x <;> simp [Bind.bind, Except.bind]

/-- A check in front of a computation has to pass. -/
lemma check_bind_eq_ok {x : Except ε Unit} {f : Unit → Except ε β} {b : β} :
    (x >>= f) = .ok b ↔ x = .ok () ∧ f () = .ok b := by
  rw [bind_eq_ok]
  exact ⟨fun ⟨(), hx, hf⟩ => ⟨hx, hf⟩, fun h => ⟨(), h⟩⟩

/-- A loop of checks passes exactly if all of them do. -/
lemma forM_eq_ok {l : List α} {f : α → Except ε Unit} :
    l.forM f = .ok () ↔ ∀ a ∈ l, f a = .ok () := by
  induction l with
  | nil => simp [pure, Except.pure]
  | cons a l ih => rw [List.forM, check_bind_eq_ok, ih, List.forall_mem_cons]

lemma pure_eq_ok {a b : α} : (pure a : Except ε α) = .ok b ↔ a = b := by simp [pure, Except.pure]

/-- A mapped computation succeeds with the image of what the computation returns. -/
lemma map_eq_ok {x : Except ε α} {g : α → β} {b : β} :
    (g <$> x) = .ok b ↔ ∃ a, x = .ok a ∧ g a = b := by
  rw [map_eq_pure_bind, bind_eq_ok]
  exact exists_congr fun a => and_congr_right fun _ => pure_eq_ok

lemma mapError_eq_ok {δ : Type} {x : Except ε α} {f : ε → δ} {a : α} :
    x.mapError f = .ok a ↔ x = .ok a := by
  cases x <;> simp [Except.mapError]

@[simp] lemma ok_bind (a : α) (f : α → Except ε β) : (Except.ok a >>= f) = f a := rfl

@[simp] lemma error_bind (e : ε) (f : α → Except ε β) : (Except.error e >>= f) = .error e := rfl

/-- Turning a missing value into an error. -/
def okOr (x : Option α) (e : ε) : Except ε α :=
  match x with
  | some a => .ok a
  | none => .error e

@[simp] lemma okOr_some (a : α) (e : ε) : okOr (some a) e = .ok a := rfl

@[simp] lemma okOr_none (e : ε) : okOr (none : Option α) e = .error e := rfl

/-- A missing value never passes. -/
lemma okOr_eq_ok {x : Option α} {e : ε} {a : α} : okOr x e = .ok a ↔ x = some a := by
  cases x <;> simp

/-- Replacing the error of a failed computation. -/
def mapErr (f : ε → ε) (x : Except ε α) : Except ε α :=
  match x with
  | .ok a => .ok a
  | .error e => .error (f e)

lemma mapErr_eq_ok {f : ε → ε} {x : Except ε α} {a : α} : mapErr f x = .ok a ↔ x = .ok a := by
  cases x <;> simp [mapErr]

lemma toOption_eq_some {x : Except ε α} {a : α} : x.toOption = some a ↔ x = .ok a := by
  cases x <;> simp [Except.toOption]

/-- A check that fails with an error unless its condition holds. -/
def ensure (p : Prop) [Decidable p] (e : ε) : Except ε Unit :=
  if p then .ok () else .error e

/-- A check passes exactly if its condition holds. -/
@[simp] lemma ensure_eq_ok {p : Prop} [Decidable p] {e : ε} {u : Unit} :
    ensure p e = .ok u ↔ p := by
  by_cases hp : p <;> simp [ensure, hp]

/-- Invariant rule for a fallible loop over a list; the invariant also sees the items already
processed. -/
lemma foldlM_invariant {f : β → α → Except ε β} (Inv : β → List α → Prop)
    (hstep : ∀ s pre x s', Inv s pre → f s x = .ok s' → Inv s' (pre ++ [x]))
    {l pre : List α} {s t : β} (hs : Inv s pre) (hrun : l.foldlM f s = .ok t) :
    Inv t (pre ++ l) := by
  induction l generalizing s pre with
  | nil => cases hrun; simpa using hs
  | cons x l ih =>
    rw [List.foldlM_cons, bind_eq_ok] at hrun
    obtain ⟨s', hx, hrun⟩ := hrun
    simpa using ih (hstep s pre x s' hs hx) hrun

end Inversion

end Gyt
