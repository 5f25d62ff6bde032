import TaintFlow.Proofs.LoadedRules
import TaintFlow.Proofs.Waiting

/-!
Checking a method again. All checks share one stash, in which earlier checks of the method, and the
checks of all other methods, have left halves. A check forgets what waits at the calls of its own
method, meets halves at these calls only, and so comes to what it comes to with an empty stash
(`Matcher.check_stashAfter`). Checks are hence idempotent, and those of different methods commute.
-/

namespace TaintFlow

namespace Stash

theorem ext_halves {s t : Stash}
    (h : ∀ rule site label, s.halves.get? (rule, site, label) = t.halves.get? (rule, site, label)) :
    s = t := by
  cases s
  cases t
  congr 1
  ext ⟨rule, site, label⟩ : 1
  exact h rule site label

end Stash

namespace Matcher

variable (m : Matcher) {method method' : Method} {os os' : List Observation}

/-- What waits after some checks, one after another, that began with nothing waiting. -/
def stashAfter (history : List (Method × List Observation)) : Stash :=
  history.foldl (fun stash (method, os) => (m.check method os stash).2) ∅

theorem check_check (hos : ∀ o ∈ os, o.site.method = method.id) (s : Stash) :
    m.check method os (m.check method os s).2 = m.check method os s := by
  obtain ⟨hmatched, hown⟩ := m.check_agree hos (m.check method os s).2 s
  apply Prod.ext hmatched
  apply Stash.ext_halves
  intro rule site label
  by_cases hsite : site.method = method.id
  · exact hown rule site label hsite
  · exact m.check_elsewhere hos _ rule site label hsite

/-- The halves of either method are those of its own check, which the other check leaves. -/
theorem check_comm (hne : method'.id ≠ method.id) (hos : ∀ o ∈ os, o.site.method = method.id)
    (hos' : ∀ o ∈ os', o.site.method = method'.id) (s : Stash) :
    (m.check method os (m.check method' os' s).2).2 =
      (m.check method' os' (m.check method os s).2).2 := by
  apply Stash.ext_halves
  intro rule site label
  by_cases hsite : site.method = method.id
  · have hother : site.method ≠ method'.id := fun h => hne (h.symm.trans hsite)
    exact ((m.check_agree hos _ s).2 rule site label hsite).trans
      (m.check_elsewhere hos' _ rule site label hother).symm
  · refine (m.check_elsewhere hos _ rule site label hsite).trans ?_
    by_cases hsite' : site.method = method'.id
    · exact ((m.check_agree hos' _ s).2 rule site label hsite').symm
    · exact (m.check_elsewhere hos' s rule site label hsite').trans
        ((m.check_elsewhere hos' _ rule site label hsite').trans
          (m.check_elsewhere hos s rule site label hsite)).symm

/-- After any checks of any methods, a check of a method comes to what it comes to with an empty
stash, leaves the same halves at the calls of the method, and changes no others. A second check
changes nothing more, and checks of another method neither change this one nor are changed by
it. -/
theorem check_stashAfter (history : List (Method × List Observation))
    (hos : ∀ o ∈ os, o.site.method = method.id) :
    (m.check method os (m.stashAfter history)).1 = (m.check method os ∅).1 ∧
      (∀ rule site label,
        (m.check method os (m.stashAfter history)).2.halves.get? (rule, site, label) =
          if site.method = method.id then (m.check method os ∅).2.halves.get? (rule, site, label)
          else (m.stashAfter history).halves.get? (rule, site, label)) ∧
      m.check method os (m.stashAfter (history ++ [(method, os)])) =
        m.check method os (m.stashAfter history) ∧
      ∀ method' os', method'.id ≠ method.id → (∀ o ∈ os', o.site.method = method'.id) →
        (m.check method os (m.stashAfter (history ++ [(method', os')]))).1 =
            (m.check method os (m.stashAfter history)).1 ∧
          (m.check method' os' (m.stashAfter (history ++ [(method, os)]))).1 =
            (m.check method' os' (m.stashAfter history)).1 ∧
          m.stashAfter (history ++ [(method, os), (method', os')]) =
            m.stashAfter (history ++ [(method', os'), (method, os)]) := by
  have hafter (checks : List (Method × List Observation)) : m.stashAfter (history ++ checks) =
      checks.foldl (fun stash (method, os) => (m.check method os stash).2) (m.stashAfter history) :=
    List.foldl_append
  refine ⟨(m.check_agree hos _ ∅).1, fun rule site label => ?_, ?_, ?_⟩
  · split
    · next hsite => exact (m.check_agree hos _ ∅).2 rule site label hsite
    · next hsite => exact m.check_elsewhere hos _ rule site label hsite
  · rw [hafter]
    exact m.check_check hos _
  · intro method' os' hne hos'
    rw [hafter, hafter, hafter, hafter]
    exact ⟨(m.check_agree hos _ _).1, (m.check_agree hos' _ _).1,
      (m.check_comm hne hos hos' _).symm⟩

/-- A half that waits from an earlier check of the method is not paired with a new one. -/
theorem check_stashAfter_launching :
    (launching.stashAfter [(.launching, [.launch 3 0])]).pending = 1 ∧
      (launching.check .launching [.launch 4 2]
        (launching.stashAfter [(.launching, [.launch 3 0])])).1.findings = [] := by
  refine ⟨by decide, ?_⟩
  have hos : ∀ o ∈ [Observation.launch 4 2], o.site.method = Method.launching.id := by decide
  rw [(launching.check_stashAfter [(.launching, [.launch 3 0])] hos).1]
  decide

end Matcher

end TaintFlow
