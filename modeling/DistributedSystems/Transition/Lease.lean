import Mathlib.Data.List.Induction

/-! # Leases with expiry, completion and revocation

A *lease* on a piece of work is free, held since some time, or finished with a payload. It is
granted when it is free or when the time it has been held has expired; the first completion report
finishes it, later ones change nothing; revoking a finished lease makes it free again.

The module says what the final state of a lease remembers of its history:

* `lastGrant_of_after_held` — a held lease is held since the last grant;
* `payload_after` — a finished lease carries the payload of the first completion since the start
  or since the last revocation (`firstFinish`);
* `consecutive_grants` — between two consecutive grants either no completion was reported and the
  first grant had expired, or the work was finished and then revoked. -/

namespace DistributedSystems

universe u v

/-- The state of a **lease**: free, held since a time, or finished with a payload. -/
inductive Lease (τ : Type u) (π : Type v)
  /-- Nobody holds the lease. -/
  | free
  /-- Granted, and not reported finished since. -/
  | held (since : τ)
  /-- Reported finished; the payload is that of the first report. -/
  | finished (payload : π)
  deriving DecidableEq

/-- What can happen to a lease. -/
inductive LeaseEvent (τ : Type u) (π : Type v)
  /-- The lease is granted at a time. -/
  | grant (time : τ)
  /-- A completion report arrives. -/
  | finish (payload : π)
  /-- A finished lease is taken back. -/
  | revoke
  deriving DecidableEq

namespace Lease

variable {τ : Type u} {π : Type v}

/-- The lease after one event. -/
def next : Lease τ π → LeaseEvent τ π → Lease τ π
  | _, .grant t => held t
  | finished p, .finish _ => finished p
  | free, .finish p => finished p
  | held _, .finish p => finished p
  | finished _, .revoke => free
  | free, .revoke => free
  | held s, .revoke => held s

/-- The lease after a list of events. -/
def after (l : Lease τ π) (es : List (LeaseEvent τ π)) : Lease τ π := es.foldl next l

@[simp] theorem after_nil (l : Lease τ π) : l.after [] = l := rfl

theorem after_append (l : Lease τ π) (es fs : List (LeaseEvent τ π)) :
    l.after (es ++ fs) = (l.after es).after fs := List.foldl_append

@[simp] theorem after_cons (l : Lease τ π) (e : LeaseEvent τ π) (es : List (LeaseEvent τ π)) :
    l.after (e :: es) = (l.next e).after es := rfl

@[simp] theorem after_concat (l : Lease τ π) (es : List (LeaseEvent τ π)) (e : LeaseEvent τ π) :
    l.after (es ++ [e]) = (l.after es).next e := after_append l es [e]

/-- The payload of a finished lease. -/
def payload : Lease τ π → Option π
  | finished p => some p
  | _ => none

@[simp] theorem payload_free : (free : Lease τ π).payload = none := rfl

@[simp] theorem payload_held (s : τ) : (held s : Lease τ π).payload = none := rfl

@[simp] theorem payload_finished (p : π) : (finished p : Lease τ π).payload = some p := rfl

/-! ## What a lease remembers -/

/-- The time of the last grant among the events. -/
def lastGrant (es : List (LeaseEvent τ π)) : Option τ :=
  es.foldl (fun last e => match e with | .grant t => some t | _ => last) none

/-- The payload of the first completion since the start or since the last revocation. -/
def firstFinish (es : List (LeaseEvent τ π)) : Option π :=
  es.foldl (fun first e => match e with
    | .grant _ => first
    | .finish p => first <|> some p
    | .revoke => none) none

theorem lastGrant_concat (es : List (LeaseEvent τ π)) (e : LeaseEvent τ π) :
    lastGrant (es ++ [e]) = match e with | .grant t => some t | _ => lastGrant es := by
  rw [lastGrant, List.foldl_append]
  rfl

theorem firstFinish_concat (es : List (LeaseEvent τ π)) (e : LeaseEvent τ π) :
    firstFinish (es ++ [e]) = match e with
      | .grant _ => firstFinish es
      | .finish p => firstFinish es <|> some p
      | .revoke => none := by
  rw [firstFinish, List.foldl_append]
  rfl

/-- **A held lease is held since the last grant.** -/
theorem lastGrant_of_after_held {es : List (LeaseEvent τ π)} {s : τ}
    (h : (free : Lease τ π).after es = held s) : lastGrant es = some s := by
  induction es using List.reverseRecOn with
  | nil => simp at h
  | append_singleton es e ih =>
      rw [after_concat] at h
      rw [lastGrant_concat]
      cases e with
      | grant t =>
          obtain rfl : t = s := held.inj h
          rfl
      | finish p => cases hl : (free : Lease τ π).after es <;> simp [hl, next] at h
      | revoke =>
          -- revoking leaves a held lease alone, so it was held since `s` before
          cases hl : (free : Lease τ π).after es with
          | free => simp [hl, next] at h
          | finished p => simp [hl, next] at h
          | held s' =>
              rw [hl] at h
              obtain rfl : s' = s := held.inj h
              exact ih hl

/-- The last grant is one of the events. -/
theorem grant_mem_of_lastGrant {es : List (LeaseEvent τ π)} {s : τ} (h : lastGrant es = some s) :
    .grant s ∈ es := by
  induction es using List.reverseRecOn with
  | nil => simp [lastGrant] at h
  | append_singleton es e ih =>
      rw [lastGrant_concat] at h
      cases e with
      | grant t =>
          obtain rfl : t = s := Option.some.inj h
          exact List.mem_append_right es (List.mem_singleton_self _)
      | finish p => exact List.mem_append_left _ (ih h)
      | revoke => exact List.mem_append_left _ (ih h)

/-- A finished lease was finished by some completion. -/
theorem finish_mem_of_after_finished {es : List (LeaseEvent τ π)} {p : π}
    (h : (free : Lease τ π).after es = finished p) : ∃ q, .finish q ∈ es := by
  induction es using List.reverseRecOn generalizing p with
  | nil => simp at h
  | append_singleton es e ih =>
      rw [after_concat] at h
      cases e with
      | grant t => simp [next] at h
      | finish q => exact ⟨q, List.mem_append_right es (List.mem_singleton_self _)⟩
      | revoke => cases hl : (free : Lease τ π).after es <;> simp [hl, next] at h

/-- The times of the grants among the events. -/
def grantTimes (es : List (LeaseEvent τ π)) : List τ :=
  es.filterMap fun e => match e with | .grant t => some t | _ => none

/-- Two grants among the events contain two consecutive ones. -/
theorem exists_consecutive {es : List (LeaseEvent τ π)} (h : 2 ≤ (grantTimes es).length) :
    ∃ fs t₁ mid t₂ gs, es = fs ++ .grant t₁ :: (mid ++ .grant t₂ :: gs) ∧ ∀ t, .grant t ∉ mid := by
  match hes : grantTimes es, h with
  | t₁ :: t₂ :: ts, _ =>
      -- the first two grants have no grant between them
      obtain ⟨fs, e₁, rest, rfl, -, he₁, hrest⟩ := List.filterMap_eq_cons_iff.mp hes
      obtain ⟨mid, e₂, gs, rfl, hmid, he₂, -⟩ := List.filterMap_eq_cons_iff.mp hrest
      have grant_of {e : LeaseEvent τ π} {t : τ}
          (he : (match e with | .grant t => some t | _ => none) = some t) : e = .grant t := by
        cases e <;> simp_all
      obtain rfl := grant_of he₁
      obtain rfl := grant_of he₂
      exact ⟨fs, t₁, mid, t₂, gs, rfl, fun t ht => by simpa using hmid _ ht⟩

/-! ## Guarded histories -/

/-- A lease may be granted at time `t` when it is free, or held since a time expired at `t`. -/
def Grantable (expired : τ → τ → Prop) : Lease τ π → τ → Prop
  | free, _ => True
  | held s, t => expired s t
  | finished _, _ => False

/-- Every grant of the history happens when the lease may be granted. -/
def Guarded (expired : τ → τ → Prop) (l : Lease τ π) (es : List (LeaseEvent τ π)) : Prop :=
  ∀ fs t gs, es = fs ++ .grant t :: gs → (l.after fs).Grantable expired t

/-- A guarded history extended by an event is guarded when a grant happens at a grantable lease. -/
theorem Guarded.concat {expired : τ → τ → Prop} {l : Lease τ π} {es : List (LeaseEvent τ π)}
    {e : LeaseEvent τ π} (h : l.Guarded expired es)
    (he : ∀ t, e = .grant t → (l.after es).Grantable expired t) : l.Guarded expired (es ++ [e]) := by
  intro fs t gs heq
  -- the grant is the new event, or one of the old ones
  rcases List.eq_nil_or_concat gs with rfl | ⟨gs, g, rfl⟩
  · obtain ⟨rfl, h₂⟩ := List.append_inj' heq rfl
    exact he t (List.cons.inj h₂).1
  · rw [List.concat_eq_append, ← List.cons_append, ← List.append_assoc] at heq
    obtain ⟨rfl, -⟩ := List.append_inj' heq rfl
    exact h fs t gs rfl

/-- **A finished lease carries the first payload since the last revocation**, when no finished lease
is ever granted: the payload of the lease is `firstFinish` of its history. -/
theorem payload_after {expired : τ → τ → Prop} {es : List (LeaseEvent τ π)}
    (h : (free : Lease τ π).Guarded expired es) :
    ((free : Lease τ π).after es).payload = firstFinish es := by
  induction es using List.reverseRecOn with
  | nil => rfl
  | append_singleton es e ih =>
      have hes : (free : Lease τ π).Guarded expired es := by
        rintro fs t gs rfl
        exact h fs t (gs ++ [e]) (by simp)
      rw [after_concat, firstFinish_concat, ← ih hes]
      cases e with
      | grant t =>
          -- a guarded grant never finds the lease finished, so no payload is lost here
          have hg := h es t [] rfl
          cases hl : (free : Lease τ π).after es with
          | free => rfl
          | held s => rfl
          | finished p => rw [hl] at hg; exact hg.elim
      | finish p => cases (free : Lease τ π).after es <;> rfl
      | revoke => cases (free : Lease τ π).after es <;> rfl

/-- What a history without grants does to a held lease: nothing (and no completion in it), or it is
finished (by a completion in it), or it is free again (by a completion and a later revocation of the
finished lease). -/
theorem after_held_cases (s : τ) {es : List (LeaseEvent τ π)} (hno : ∀ t, .grant t ∉ es) :
    ((held s : Lease τ π).after es = held s ∧ ∀ p, .finish p ∉ es) ∨
    (∃ q fs p gs, (held s : Lease τ π).after es = finished q ∧ es = fs ++ .finish p :: gs) ∨
    ((held s : Lease τ π).after es = free ∧
      ∃ fs p gs hs q, es = fs ++ .finish p :: gs ++ .revoke :: hs ∧
        (held s : Lease τ π).after (fs ++ .finish p :: gs) = finished q) := by
  induction es using List.reverseRecOn with
  | nil => exact Or.inl ⟨rfl, fun p => List.not_mem_nil⟩
  | append_singleton es e ih =>
      have hes : ∀ t, .grant t ∉ es := fun t ht => hno t (List.mem_append_left _ ht)
      simp only [after_concat]
      cases e with
      | grant t => exact absurd (List.mem_append_right es (List.mem_singleton_self _)) (hno t)
      | finish p =>
          -- whatever the lease was, a completion leaves it finished
          refine Or.inr (Or.inl ?_)
          cases hl : (held s : Lease τ π).after es with
          | free => exact ⟨p, es, p, [], rfl, rfl⟩
          | held s' => exact ⟨p, es, p, [], rfl, rfl⟩
          | finished q => exact ⟨q, es, p, [], rfl, rfl⟩
      | revoke =>
          rcases ih hes with ⟨hl, hfin⟩ | ⟨q, fs, p, gs, hl, rfl⟩ | ⟨hl, fs, p, gs, hs, q, rfl, hq⟩
          · refine Or.inl ⟨by rw [hl]; rfl, fun p hp => ?_⟩
            rcases List.mem_append.mp hp with hp | hp
            · exact hfin p hp
            · simp at hp
          · exact Or.inr (Or.inr ⟨by rw [hl]; rfl, fs, p, gs, [], q, rfl, hl⟩)
          · exact Or.inr (Or.inr ⟨by rw [hl]; rfl, fs, p, gs, hs ++ [.revoke], q, by simp, hq⟩)

/-- **Two consecutive grants.** In a guarded history, between a grant at `t₁` and the next grant at
`t₂`, either no completion was reported and the grant at `t₁` had expired at `t₂`, or the lease was
finished by a completion and then revoked. -/
theorem consecutive_grants {expired : τ → τ → Prop} {l : Lease τ π} {t₁ t₂ : τ}
    {es mid fs : List (LeaseEvent τ π)}
    (h : l.Guarded expired (es ++ .grant t₁ :: (mid ++ .grant t₂ :: fs)))
    (hno : ∀ t, .grant t ∉ mid) :
    ((∀ p, .finish p ∉ mid) ∧ expired t₁ t₂) ∨
    ∃ xs p ys zs q, mid = xs ++ .finish p :: ys ++ .revoke :: zs ∧
      (held t₁ : Lease τ π).after (xs ++ .finish p :: ys) = finished q := by
  have hgrant : ((held t₁ : Lease τ π).after mid).Grantable expired t₂ := by
    have := h (es ++ .grant t₁ :: mid) t₂ fs (by simp)
    rwa [after_append, after_cons] at this
  -- a lease finished at `t₂` could not be granted: it is still held, or free by a revocation
  rcases after_held_cases t₁ hno with ⟨hl, hfin⟩ | ⟨q, xs, p, ys, hl, -⟩ |
    ⟨-, xs, p, ys, zs, q, hmid, hq⟩
  · rw [hl] at hgrant
    exact Or.inl ⟨hfin, hgrant⟩
  · rw [hl] at hgrant
    exact hgrant.elim
  · exact Or.inr ⟨xs, p, ys, zs, q, hmid, hq⟩

end Lease

end DistributedSystems
