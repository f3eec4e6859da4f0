import Mathlib.Data.List.Forall2

/-!
Computations that end in a value or a fault. A computation with a value is taken apart bind by
bind, and a list is gone through entry by entry.
-/
namespace AstXml.Outcome

variable {ε α β : Type}

theorem bind_eq_ok {x : Except ε α} {f : α → Except ε β} {b : β} :
    x >>= f = .ok b ↔ ∃ a, x = .ok a ∧ f a = .ok b := by
  cases x with
  | error e => simp [bind, Except.bind]
  | ok a => simp [bind, Except.bind]

/-- A check in front of a computation. -/
theorem check_eq_ok {x : Except ε Unit} {f : Unit → Except ε β} {b : β} :
    x >>= f = .ok b ↔ x = .ok () ∧ f () = .ok b := by
  rw [bind_eq_ok]
  exact ⟨fun ⟨(), hx, hf⟩ => ⟨hx, hf⟩, fun ⟨hx, hf⟩ => ⟨(), hx, hf⟩⟩

theorem pure_eq_ok {a b : α} : (pure a : Except ε α) = .ok b ↔ a = b := by
  simp [pure, Except.pure]

theorem map_eq_ok {x : Except ε α} {f : α → β} {b : β} :
    x.map f = .ok b ↔ ∃ a, x = .ok a ∧ f a = b := by
  cases x <;> simp [Except.map]

theorem ok_bind (a : α) (f : α → Except ε β) : (.ok a : Except ε α) >>= f = f a := rfl

theorem error_bind (e : ε) (f : α → Except ε β) : (.error e : Except ε α) >>= f = .error e := rfl

theorem mapM_eq_ok {f : α → Except ε β} {xs : List α} {ys : List β} :
    xs.mapM f = .ok ys ↔ List.Forall₂ (fun x y => f x = .ok y) xs ys := by
  induction xs generalizing ys with
  | nil => rw [List.mapM_nil, pure_eq_ok, List.forall₂_nil_left_iff, eq_comm]
  | cons x rest ih =>
    simp only [List.mapM_cons, bind_eq_ok, pure_eq_ok, ih, List.forall₂_cons_left_iff]
    constructor
    · rintro ⟨y, hy, tail, ht, rfl⟩
      exact ⟨y, tail, hy, ht, rfl⟩
    · rintro ⟨y, tail, hy, ht, rfl⟩
      exact ⟨y, hy, tail, ht, rfl⟩

theorem mapM_total {f : α → Except ε β} {xs : List α} (total : ∀ x ∈ xs, ∃ y, f x = .ok y) :
    ∃ ys, xs.mapM f = .ok ys := by
  induction xs with
  | nil => exact ⟨[], rfl⟩
  | cons x rest ih =>
    obtain ⟨y, hy⟩ := total x (by simp)
    obtain ⟨ys, hys⟩ := ih fun x hx => total x (by simp [hx])
    refine ⟨y :: ys, ?_⟩
    rw [List.mapM_cons, hy, hys]
    rfl

theorem mem_mapM {f : α → Except ε β} {xs : List α} {ys : List β} (mapped : xs.mapM f = .ok ys)
    (y : β) : y ∈ ys ↔ ∃ x ∈ xs, f x = .ok y := by
  have related := mapM_eq_ok.mp mapped
  clear mapped
  induction related with
  | nil => simp
  | @cons x z xs ys hz tail ih =>
    simp only [List.mem_cons, ih, exists_eq_or_imp, hz, Except.ok.injEq]
    exact or_congr_left eq_comm

/-- A view of the results that the arguments determine. -/
theorem map_mapM {γ : Type} {f : α → Except ε β} {xs : List α} {ys : List β} {view : β → γ}
    {source : α → γ} (mapped : xs.mapM f = .ok ys)
    (same : ∀ x y, f x = .ok y → view y = source x) : ys.map view = xs.map source := by
  have related := mapM_eq_ok.mp mapped
  clear mapped
  induction related with
  | nil => rfl
  | cons found _ ih => rw [List.map_cons, List.map_cons, same _ _ found, ih]

/-- A test that always has an answer keeps the entries for which the answer is yes. -/
theorem filterM_eq_ok {p : α → Except ε Bool} {xs : List α}
    (total : ∀ x ∈ xs, ∃ b, p x = .ok b) :
    xs.filterM p = .ok (xs.filter fun x => (p x).toOption == some true) := by
  -- The library function gathers what it keeps in reverse.
  have gathered : ∀ kept, xs.filterAuxM p kept =
      .ok ((xs.filter fun x => (p x).toOption == some true).reverse ++ kept) := by
    induction xs with
    | nil => exact fun kept => rfl
    | cons x rest ih =>
      intro kept
      obtain ⟨b, hb⟩ := total x (by simp)
      have tail := ih fun x hx => total x (by simp [hx])
      rw [List.filterAuxM, hb, ok_bind, tail]
      cases b <;> simp [hb, Except.toOption]
  rw [List.filterM, gathered, ok_bind]
  simp [pure, Except.pure]

theorem mem_filterM {p : α → Except ε Bool} {xs ys : List α}
    (total : ∀ x ∈ xs, ∃ b, p x = .ok b) (kept : xs.filterM p = .ok ys) (x : α) :
    x ∈ ys ↔ x ∈ xs ∧ p x = .ok true := by
  have same := (filterM_eq_ok total).symm.trans kept
  cases same
  rw [List.mem_filter]
  cases hp : p x <;> simp [Except.toOption]

/-- The positions of a list ascend. -/
theorem pairwise_zipIdx (entries : List α) : entries.zipIdx.Pairwise fun a b => a.2 < b.2 := by
  have positions : (entries.zipIdx.map (·.2)).Pairwise (· < ·) := by
    rw [List.zipIdx_map_snd]
    exact List.pairwise_lt_range'
  exact List.pairwise_map.mp positions

section Related

variable {γ : Type} {related : α → γ → Prop} {xs : List α} {ys : List γ}

theorem mapM_related {f : α → Except ε β} {g : γ → Except ε β}
    (same : ∀ x y, related x y → g y = f x) (h : List.Forall₂ related xs ys) :
    ys.mapM g = xs.mapM f := by
  induction h with
  | nil => rfl
  | cons here _ ih => rw [List.mapM_cons, List.mapM_cons, same _ _ here, ih]

/-- A test that answers the same for related entries keeps related lists of them. -/
theorem filterM_related {p : α → Except ε Bool} {q : γ → Except ε Bool}
    (same : ∀ x y b, related x y → p x = .ok b → q y = .ok b) (h : List.Forall₂ related xs ys)
    {kept : List α} (filtered : xs.filterM p = .ok kept) :
    ∃ kept', ys.filterM q = .ok kept' ∧ List.Forall₂ related kept kept' := by
  have gathered : ∀ {before before' kept}, List.Forall₂ related before before' →
      xs.filterAuxM p before = .ok kept →
      ∃ kept', ys.filterAuxM q before' = .ok kept' ∧ List.Forall₂ related kept kept' := by
    clear filtered
    induction h with
    | nil =>
      rintro before before' kept earlier filtered
      cases filtered
      exact ⟨before', rfl, earlier⟩
    | @cons x y _ _ here _ ih =>
      rintro before before' kept earlier filtered
      obtain ⟨b, answered, rest⟩ := bind_eq_ok.mp filtered
      have grown : List.Forall₂ related (bif b then x :: before else before)
          (bif b then y :: before' else before') := by
        cases b with
        | false => exact earlier
        | true => exact .cons here earlier
      obtain ⟨kept', rest', later⟩ := ih grown rest
      exact ⟨kept', bind_eq_ok.mpr ⟨b, same x y b here answered, rest'⟩, later⟩
  -- The library function gathers what it keeps in reverse.
  obtain ⟨all, reversed, order⟩ := bind_eq_ok.mp filtered
  cases pure_eq_ok.mp order
  obtain ⟨all', reversed', later⟩ := gathered .nil reversed
  exact ⟨all'.reverse, bind_eq_ok.mpr ⟨all', reversed', rfl⟩, List.rel_reverse later⟩

end Related

end AstXml.Outcome
