import Mathlib.Data.List.Basic
import Mathlib.Order.Defs.Unbundled

/-!
# Computations that end normally

Rules for programs in `EStateM`, where an error keeps the state reached. The notion used
throughout is `Returns`: from a state the program ends normally with a value and a final
state.
-/

namespace NzbDownloader.Lib.Effect

open List

universe u v

variable {ε σ α β : Type u} {program : EStateM ε σ α} {next : α → EStateM ε σ β} {a : α} {e : ε}
  {s s' s'' : σ}

def Returns (program : EStateM ε σ α) (s : σ) (a : α) (s' : σ) : Prop :=
  program s = .ok a s'

theorem returns_pure {b : α} : Returns (pure a : EStateM ε σ α) s b s' ↔ a = b ∧ s = s' := by
  constructor
  · intro returns
    cases returns
    exact ⟨rfl, rfl⟩
  · rintro ⟨rfl, rfl⟩
    rfl

theorem returns_throw : ¬Returns (throw e : EStateM ε σ α) s a s' := by
  intro returns
  cases returns

theorem returns_bind {b : β} : Returns (program >>= next) s b s'' ↔
      ∃ a s', Returns program s a s' ∧ Returns (next a) s' b s'' := by
  unfold Returns
  change EStateM.bind program next s = _ ↔ _
  unfold EStateM.bind
  cases program s with
  | ok a s' =>
    constructor
    · exact fun rest => ⟨a, s', rfl, rest⟩
    · rintro ⟨_, _, same, rest⟩
      cases same
      exact rest
  | error e s' =>
    constructor
    · exact fun impossible => nomatch impossible
    · rintro ⟨_, _, impossible, _⟩
      cases impossible

theorem returns_get {a s s' : σ} : Returns (get : EStateM ε σ σ) s a s' ↔ a = s ∧ s' = s := by
  constructor
  · intro returns
    cases returns
    exact ⟨rfl, rfl⟩
  · rintro ⟨rfl, rfl⟩
    rfl

theorem returns_modify {f : σ → σ} {u : PUnit} :
    Returns (modify f : EStateM ε σ PUnit) s u s' ↔ s' = f s := by
  constructor
  · intro returns
    cases returns
    rfl
  · rintro rfl
    rfl

theorem returns_get_bind {next : σ → EStateM ε σ β} {b : β} :
    Returns (get >>= next) s b s' ↔ Returns (next s) s b s' :=
  Iff.rfl

theorem returns_modify_bind {f : σ → σ} {next : PUnit → EStateM ε σ β} {b : β} :
    Returns (modify f >>= next) s b s' ↔ Returns (next ⟨⟩) (f s) b s' :=
  Iff.rfl

def Fails (program : EStateM ε σ α) (s : σ) (e : ε) (s' : σ) : Prop :=
  program s = .error e s'

theorem fails_pure : ¬Fails (pure a : EStateM ε σ α) s e s' := by
  intro fails
  cases fails

theorem fails_throw {e e' : ε} : Fails (throw e : EStateM ε σ α) s e' s' ↔ e = e' ∧ s = s' := by
  constructor
  · intro fails
    cases fails
    exact ⟨rfl, rfl⟩
  · rintro ⟨rfl, rfl⟩
    rfl

theorem fails_bind : Fails (program >>= next) s e s'' ↔
      Fails program s e s'' ∨ ∃ a s', Returns program s a s' ∧ Fails (next a) s' e s'' := by
  unfold Fails Returns
  change EStateM.bind program next s = _ ↔ _
  unfold EStateM.bind
  cases program s with
  | ok a s' =>
    constructor
    · exact fun rest => .inr ⟨a, s', rfl, rest⟩
    · rintro (impossible | ⟨_, _, same, rest⟩)
      · cases impossible
      · cases same
        exact rest
  | error e s' =>
    constructor
    · intro same
      cases same
      exact .inl rfl
    · rintro (same | ⟨_, _, impossible, _⟩)
      · cases same
        rfl
      · cases impossible

theorem Returns.not_fails (returns : Returns program s a s') : ¬Fails program s e s'' := by
  intro fails
  cases returns.symm.trans fails

theorem Returns.unique {b : α}
    (returns : Returns program s a s') (again : Returns program s b s'') : a = b ∧ s' = s'' := by
  cases returns.symm.trans again
  exact ⟨rfl, rfl⟩

theorem returns_or_fails (program : EStateM ε σ α) (s : σ) :
    (∃ a s', Returns program s a s') ∨ ∃ e s', Fails program s e s' := by
  cases run : program s with
  | ok a s' => exact .inl ⟨a, s', run⟩
  | error e s' => exact .inr ⟨e, s', run⟩

def endsWith (program : EStateM ε σ α) (s : σ) (test : α → σ → Bool) : Bool :=
  match program s with
  | .ok a s' => test a s'
  | .error _ _ => false

theorem exists_returns_of_endsWith {s : σ} {test : α → σ → Bool}
    (passed : endsWith program s test) :
    ∃ a s', Returns program s a s' ∧ test a s' = true := by
  unfold endsWith at passed
  cases run : program s with
  | ok a s' =>
    rw [run] at passed
    exact ⟨a, s', run, passed⟩
  | error e s' =>
    rw [run] at passed
    contradiction

def failsWith (program : EStateM ε σ α) (s : σ) (test : ε → Bool) : Bool :=
  match program s with
  | .ok _ _ => false
  | .error e _ => test e

theorem exists_fails_of_failsWith {s : σ} {test : ε → Bool}
    (failed : failsWith program s test) : ∃ e s', Fails program s e s' ∧ test e = true := by
  unfold failsWith at failed
  cases run : program s with
  | ok a s' =>
    rw [run] at failed
    contradiction
  | error e s' =>
    rw [run] at failed
    exact ⟨e, s', run, failed⟩

theorem returns_foldlM_range {n : ℕ} {body : β → ℕ → EStateM ε σ β}
    {I : ℕ → β → σ → Prop} {b b' : β}
    (returns : Returns ((List.range n).foldlM body b) s b' s') (start : I 0 b s)
    (step : ∀ k < n, ∀ acc t acc' t', I k acc t →
      Returns (body acc k) t acc' t' → I (k + 1) acc' t') :
    I n b' s' := by
  induction n generalizing b' s' with
  | zero =>
    obtain ⟨rfl, rfl⟩ := returns_pure.mp returns
    exact start
  | succ n ih =>
    rw [range_succ, foldlM_append] at returns
    obtain ⟨acc, t, first, last⟩ := returns_bind.mp returns
    rw [foldlM_cons] at last
    obtain ⟨acc', t', body, done⟩ := returns_bind.mp last
    obtain ⟨rfl, rfl⟩ := returns_pure.mp done
    have before := ih first fun k bound => step k (by omega)
    exact step n (by omega) acc t acc' t' before body

theorem returns_foldlM {α : Type v} {xs : List α} {body : β → α → EStateM ε σ β}
    {I : List α → β → σ → Prop} {b b' : β}
    (returns : Returns (xs.foldlM body b) s b' s') (start : I [] b s)
    (step : ∀ visited x rest acc t acc' t', xs = visited ++ x :: rest →
      I visited acc t → Returns (body acc x) t acc' t' →
      I (visited ++ [x]) acc' t') :
    I xs b' s' := by
  suffices general : ∀ (rest visited : List α) (acc : β) (t : σ), xs = visited ++ rest →
      I visited acc t → Returns (rest.foldlM body acc) t b' s' →
      I xs b' s' from
    general xs [] b s rfl start returns
  intro rest
  induction rest with
  | nil =>
    intro visited acc t split before done
    obtain ⟨rfl, rfl⟩ := returns_pure.mp done
    rw [append_nil] at split
    rwa [split]
  | cons x rest ih =>
    intro visited acc t split before run
    rw [foldlM_cons] at run
    obtain ⟨acc', t', here, later⟩ := returns_bind.mp run
    exact ih (visited ++ [x]) acc' t' (by simp [split])
      (step visited x rest acc t acc' t' split before here) later

theorem forM_eq_foldlM {γ : Type v} (xs : List γ) (body : γ → EStateM ε σ PUnit) :
    xs.forM body = xs.foldlM (fun _ x => body x) ⟨⟩ := by
  induction xs with
  | nil => rfl
  | cons x xs ih =>
    rw [foldlM_cons]
    exact congrArg (body x >>= ·) (funext fun _ => ih)

theorem returns_forM {γ : Type v} {xs : List γ} {body : γ → EStateM ε σ PUnit}
    {I : List γ → σ → Prop} {u : PUnit} (returns : Returns (xs.forM body) s u s') (start : I [] s)
    (step : ∀ visited x rest t t', xs = visited ++ x :: rest → I visited t →
      Returns (body x) t ⟨⟩ t' → I (visited ++ [x]) t') : I xs s' := by
  rw [forM_eq_foldlM] at returns
  exact returns_foldlM (I := fun visited _ => I visited) returns start
    fun visited x rest _ t _ t' split before here => step visited x rest t t' split before here

theorem returns_forM_range {n : ℕ} {body : ℕ → EStateM ε σ PUnit} {I : ℕ → σ → Prop} {u : PUnit}
    (returns : Returns ((List.range n).forM body) s u s') (start : I 0 s)
    (step : ∀ k < n, ∀ t t', I k t → Returns (body k) t ⟨⟩ t' → I (k + 1) t') : I n s' := by
  rw [forM_eq_foldlM] at returns
  exact returns_foldlM_range (I := fun k _ => I k) returns start
    fun k bound _ t _ t' before here => step k bound t t' before here

theorem returns_mapM {γ : Type u} {xs : List γ} {program : γ → EStateM ε σ β} {ys : List β}
    {I : σ → Prop} {related : γ → β → Prop}
    (returns : Returns (xs.mapM program) s ys s') (start : I s)
    (step : ∀ x ∈ xs, ∀ t y t', I t → Returns (program x) t y t' →
      I t' ∧ related x y) :
    I s' ∧ List.Forall₂ related xs ys := by
  induction xs generalizing ys s with
  | nil =>
    rw [mapM_nil] at returns
    obtain ⟨rfl, rfl⟩ := returns_pure.mp returns
    exact ⟨start, List.Forall₂.nil⟩
  | cons x xs ih =>
    rw [mapM_cons] at returns
    obtain ⟨y, t, here, later⟩ := returns_bind.mp returns
    obtain ⟨rest, t', tail, done⟩ := returns_bind.mp later
    obtain ⟨rfl, rfl⟩ := returns_pure.mp done
    obtain ⟨kept, head⟩ := step x (by simp) s y t start here
    obtain ⟨final, others⟩ := ih tail kept fun x member => step x (by simp [member])
    exact ⟨final, List.Forall₂.cons head others⟩

/-! ## Programs that always return the same value -/

section Answers

variable {I : σ → Prop}

def Answers (I : σ → Prop) (program : EStateM ε σ α) (a : α) : Prop :=
  ∀ s, I s → ∃ s', Returns program s a s' ∧ I s'

theorem answers_pure (a : α) : Answers I (pure a : EStateM ε σ α) a :=
  fun s holds => ⟨s, rfl, holds⟩

theorem Answers.bind {b : β} (first : Answers I program a) (second : Answers I (next a) b) :
    Answers I (program >>= next) b := by
  intro s holds
  obtain ⟨t, here, kept⟩ := first s holds
  obtain ⟨s', later, final⟩ := second t kept
  exact ⟨s', returns_bind.mpr ⟨a, t, here, later⟩, final⟩

theorem answers_mapM {γ : Type u} {xs : List γ} {program : γ → EStateM ε σ β} {f : γ → β}
    (each : ∀ x ∈ xs, Answers I (program x) (f x)) : Answers I (xs.mapM program) (xs.map f) := by
  induction xs with
  | nil =>
    rw [mapM_nil]
    exact answers_pure []
  | cons x xs ih =>
    rw [mapM_cons]
    apply (each x (.head _)).bind
    apply (ih fun y member => each y (.tail _ member)).bind
    exact answers_pure _

theorem answers_foldlM {γ : Type v} {xs : List γ} {body : β → γ → EStateM ε σ β} {f : β → γ → β}
    {b : β} (each : ∀ acc, ∀ x ∈ xs, Answers I (body acc x) (f acc x)) :
    Answers I (xs.foldlM body b) (xs.foldl f b) := by
  induction xs generalizing b with
  | nil => exact answers_pure b
  | cons x xs ih =>
    rw [foldlM_cons, foldl_cons]
    apply (each b x (.head _)).bind
    exact ih fun acc y member => each acc y (.tail _ member)

end Answers

/-! ## Programs that look at a part of the state only -/

section Agrees

variable {R : σ → σ → Prop}

def Agrees (R : σ → σ → Prop) (program : EStateM ε σ α) : Prop :=
  ∀ ⦃s t⦄, R s t →
    (∃ a s' t', Returns program s a s' ∧ Returns program t a t' ∧ R s' t') ∨
      ∃ e s' t', Fails program s e s' ∧ Fails program t e t' ∧ R s' t'

theorem agrees_pure (a : α) : Agrees R (pure a : EStateM ε σ α) :=
  fun s t related => .inl ⟨a, s, t, rfl, rfl, related⟩

theorem agrees_throw (e : ε) : Agrees R (throw e : EStateM ε σ α) :=
  fun s t related => .inr ⟨e, s, t, rfl, rfl, related⟩

theorem agrees_modify {f : σ → σ} (kept : ∀ s t, R s t → R (f s) (f t)) :
    Agrees R (modify f : EStateM ε σ PUnit) :=
  fun s t related => .inl ⟨⟨⟩, f s, f t, rfl, rfl, kept s t related⟩

theorem Agrees.bind
    (first : Agrees R program) (second : ∀ a, Agrees R (next a)) : Agrees R (program >>= next) := by
  intro s t related
  rcases first related with ⟨a, s', t', here, there, kept⟩ | ⟨e, s', t', here, there, kept⟩
  · rcases second a kept with ⟨b, s'', t'', later, laterToo, final⟩ |
      ⟨e, s'', t'', later, laterToo, final⟩
    · exact .inl ⟨b, s'', t'', returns_bind.mpr ⟨a, s', here, later⟩,
        returns_bind.mpr ⟨a, t', there, laterToo⟩, final⟩
    · exact .inr ⟨e, s'', t'', fails_bind.mpr (.inr ⟨a, s', here, later⟩),
        fails_bind.mpr (.inr ⟨a, t', there, laterToo⟩), final⟩
  · exact .inr ⟨e, s', t', fails_bind.mpr (.inl here), fails_bind.mpr (.inl there), kept⟩

theorem Agrees.returns {t : σ} (agrees : Agrees R program)
    (related : R s t) (returns : Returns program s a s') :
    ∃ t', Returns program t a t' ∧ R s' t' := by
  rcases agrees related with ⟨b, s'', t', here, there, kept⟩ | ⟨e, s'', t', here, _, _⟩
  · obtain ⟨rfl, rfl⟩ := returns.unique here
    exact ⟨t', there, kept⟩
  · exact absurd here returns.not_fails

end Agrees

section Leads

def final (program : EStateM ε σ α) (s : σ) : σ :=
  match program s with
  | .ok _ s' => s'
  | .error _ s' => s'

theorem Returns.final_eq (returns : Returns program s a s') : final program s = s' := by
  rw [final, show program s = .ok a s' from returns]

theorem Fails.final_eq (fails : Fails program s e s') : final program s = s' := by
  rw [final, show program s = .error e s' from fails]

theorem Returns.final_bind
    (returns : Returns program s a s') : final (program >>= next) s = final (next a) s' := by
  unfold final
  change (match EStateM.bind program next s with | .ok _ s' => s' | .error _ s' => s') = _
  rw [EStateM.bind, show program s = .ok a s' from returns]

theorem Fails.final_bind (fails : Fails program s e s') : final (program >>= next) s = s' := by
  have ends : Fails (program >>= next) s e s' := fails_bind.mpr (.inl fails)
  exact ends.final_eq

variable {R : σ → σ → Prop}

def Leads (R : σ → σ → Prop) (program : EStateM ε σ α) : Prop :=
  ∀ s, R s (final program s)

theorem Leads.mono {S : σ → σ → Prop} (leads : Leads R program)
    (weaker : ∀ s s', R s s' → S s s') : Leads S program :=
  fun s => weaker s _ (leads s)

theorem Leads.returns (leads : Leads R program) (returns : Returns program s a s') : R s s' := by
  rw [← returns.final_eq]
  exact leads s

theorem leads_pure [Std.Refl R] : Leads R (pure a : EStateM ε σ α) :=
  fun s => Std.Refl.refl s

theorem leads_throw [Std.Refl R] : Leads R (throw e : EStateM ε σ α) :=
  fun s => Std.Refl.refl s

theorem leads_get [Std.Refl R] : Leads R (get : EStateM ε σ σ) :=
  fun s => Std.Refl.refl s

theorem leads_modify {f : σ → σ} (each : ∀ s, R s (f s)) :
    Leads R (modify f : EStateM ε σ PUnit) :=
  each

theorem leads_bind_of_returns [IsTrans σ R] (first : Leads R program)
    (second : ∀ ⦃s a s'⦄, Returns program s a s' → R s' (final (next a) s')) :
    Leads R (program >>= next) := by
  intro s
  have here := first s
  rcases returns_or_fails program s with ⟨a, s', returns⟩ | ⟨e, s', fails⟩
  · rw [returns.final_bind]
    rw [returns.final_eq] at here
    exact IsTrans.trans s s' _ here (second returns)
  · rw [fails.final_eq] at here
    rwa [fails.final_bind]

theorem leads_bind [IsTrans σ R]
    (first : Leads R program) (second : ∀ a, Leads R (next a)) : Leads R (program >>= next) :=
  leads_bind_of_returns first fun _ a s' _ => second a s'

theorem leads_forM [Std.Refl R] [IsTrans σ R] {γ : Type v} {xs : List γ}
    {body : γ → EStateM ε σ PUnit} (each : ∀ x ∈ xs, Leads R (body x)) :
    Leads R (xs.forM body) := by
  induction xs with
  | nil => exact leads_pure
  | cons x xs ih =>
    apply leads_bind (each x (.head _))
    intro _
    exact ih fun y member => each y (.tail _ member)

theorem leads_foldlM [Std.Refl R] [IsTrans σ R] {γ : Type v} {xs : List γ}
    {body : β → γ → EStateM ε σ β} {b : β} (each : ∀ acc x, Leads R (body acc x)) :
    Leads R (xs.foldlM body b) := by
  induction xs generalizing b with
  | nil => exact leads_pure
  | cons x xs ih =>
    rw [foldlM_cons]
    exact leads_bind (each b x) fun _ => ih

theorem leads_mapM [Std.Refl R] [IsTrans σ R] {γ : Type u} {xs : List γ}
    {program : γ → EStateM ε σ β} (each : ∀ x, Leads R (program x)) :
    Leads R (xs.mapM program) := by
  induction xs with
  | nil =>
    rw [mapM_nil]
    exact leads_pure
  | cons x xs ih =>
    rw [mapM_cons]
    apply leads_bind (each x)
    intro y
    exact leads_bind ih fun _ => leads_pure

end Leads

section Keeps

variable {τ : Type v} {view : σ → τ}

/-- However the program ends, it has not changed this view of the state. -/
abbrev Keeps (view : σ → τ) (program : EStateM ε σ α) : Prop :=
  Leads (fun s s' => view s' = view s) program

instance reflSame : Std.Refl fun s s' => view s' = view s :=
  ⟨fun _ => rfl⟩

instance transSame : IsTrans σ fun s s' => view s' = view s :=
  ⟨fun _ _ _ first second => second.trans first⟩

theorem Keeps.eq (kept : Keeps view program) (returns : Returns program s a s') :
    view s' = view s :=
  Leads.returns (R := fun s s' => view s' = view s) kept returns

theorem Keeps.comp {υ : Type v} (kept : Keeps view program) (g : τ → υ) :
    Keeps (fun s => g (view s)) program :=
  kept.mono fun _ _ same => congrArg g same

end Keeps

end NzbDownloader.Lib.Effect
