import Mathlib.Data.List.Forall2
namespace BuchiToRabin

-- A computation that may fail: how the first failure decides.
variable {ε δ : Type u} {α β : Type v}

@[simp] theorem ok_bind (a : α) (next : α → Except ε β) : (Except.ok a >>= next) = next a := rfl

@[simp] theorem error_bind (e : ε) (next : α → Except ε β) :
    ((Except.error e : Except ε α) >>= next) = .error e := rfl

@[simp] theorem pure_eq_ok (a : α) : (pure a : Except ε α) = .ok a := rfl

@[simp] theorem mapError_ok (g : ε → δ) (a : α) : (Except.ok a : Except ε α).mapError g = .ok a := rfl

theorem mapError_eq_ok {g : ε → δ} {first : Except ε α} {a : α} : first.mapError g = .ok a ↔ first = .ok a := by
  cases first with
  | error e => exact ⟨nofun,nofun⟩
  | ok b => rw [mapError_ok,Except.ok.injEq,Except.ok.injEq]

theorem mapError_bind (g : ε → δ) (first : Except ε α) (next : α → Except ε β) :
    (first >>= next).mapError g = (first.mapError g >>= fun a => (next a).mapError g) := by
  cases first <;> rfl

theorem bind_eq_ok {first : Except ε α} {next : α → Except ε β} {b : β} :
    (first >>= next) = .ok b ↔ ∃ a, first = .ok a ∧ next a = .ok b := by
  cases first with
  | error e => simp
  | ok a => simp

theorem bind_eq_error {first : Except ε α} {next : α → Except ε β} {e : ε} :
    (first >>= next) = .error e ↔ first = .error e ∨ ∃ a, first = .ok a ∧ next a = .error e := by
  cases first with
  | error e' => simp
  | ok a => simp

theorem map_eq_ok {f : α → β} {first : Except ε α} {b : β} :
    f <$> first = .ok b ↔ ∃ a, first = .ok a ∧ f a = b := by
  cases first with
  | error e => exact ⟨nofun,nofun⟩
  | ok a =>
    constructor
    · intro done
      exact ⟨a,rfl,Except.ok.inj done⟩
    · intro found
      obtain ⟨_,same,rfl⟩ := found
      cases same
      rfl

theorem map_eq_error {f : α → β} {first : Except ε α} {e : ε} : f <$> first = .error e ↔ first = .error e := by
  cases first with
  | error e' => exact ⟨congrArg _ ∘ Except.error.inj,congrArg _ ∘ Except.error.inj⟩
  | ok a => exact ⟨nofun,nofun⟩

-- The failure by itself, so that it can be compared where values cannot.
def failure? : Except ε α → Option ε
  | .ok _ => none
  | .error e => some e

theorem failure?_eq_some {first : Except ε α} {e : ε} : failure? first = some e ↔ first = .error e := by
  cases first with
  | error e' => exact ⟨congrArg _ ∘ Option.some.inj,congrArg _ ∘ Except.error.inj⟩
  | ok a => exact ⟨nofun,nofun⟩

theorem mapM_eq_ok {f : α → Except ε β} (xs : List α) : ∀ {ys},
    xs.mapM f = .ok ys ↔ List.Forall₂ (fun x y => f x = .ok y) xs ys := by
  induction xs with
  | nil =>
    intro ys
    rw [List.mapM_nil,List.forall₂_nil_left_iff]
    exact ⟨fun done => (Except.ok.inj done).symm,fun none => congrArg _ none.symm⟩
  | cons x xs ih =>
    intro ys
    rw [List.mapM_cons]
    constructor
    · intro done
      obtain ⟨y,first,done⟩ := bind_eq_ok.mp done
      obtain ⟨later,rest,done⟩ := bind_eq_ok.mp done
      cases done
      exact .cons first (ih.mp rest)
    · intro listed
      cases listed with
      | cons first rest =>
        rw [first,ok_bind,ih.mpr rest]
        rfl

end BuchiToRabin
