import NameServerConf.Node.Outline
import NameServerConf.Proofs.Layout

/-!
# Statements that agree

Two statements **agree** if they have the same keyword, header, value and body text, and their children
agree one by one, at every depth.  How they are laid out, and whether they were found or built, is
not part of it.

**Induction on statements.**  The text inside the braces of a statement is shorter than the statement,
so what a statement has from its children it has (`Statement.induction`).

Statements that are alike agree: `Alike.agrees`.
-/

namespace NameServerConf

namespace Node

/-- A body weighs less than the node that it is found in, unless there is nothing in it. -/
lemma weights_body_lt {n : Node} {s : Statement} (hs : n.statement? = some s) (hne : s.body ≠ []) :
    weights s.body < n.weight := by
  have hread : ∀ t : Text, (Statement.read t).body ≠ [] →
      weights (Statement.read t).body < t.length := by
    intro t ht
    have hbody : (Statement.read t).body = ((Statement.innerText? t).map parse).getD [] := rfl
    rw [hbody] at ht ⊢
    cases hinner : Statement.innerText? t with
    | none =>
        rw [hinner] at ht
        exact absurd rfl ht
    | some inner =>
        rw [Option.map_some, Option.getD_some, weights_parse]
        exact Statement.length_lt_of_innerText? hinner
  cases n with
  | raw t => cases hs
  | source t =>
      cases hs
      exact hread t hne
  | line t =>
      cases hs
      simpa [weight] using hread _ hne
  | block header body =>
      cases hs
      exact Nat.lt_succ_self _

end Node

namespace Statement

/-- **Induction on statements**: what a statement has if all its children have it. -/
theorem induction {P : Statement → Prop} (h : ∀ s, (∀ c ∈ s.children, P c) → P s) (s : Statement) :
    P s := by
  generalize hw : Node.weights s.body = w
  induction w using Nat.strong_induction_on generalizing s with
  | _ w ih =>
    subst hw
    refine h s fun c hc => ?_
    obtain ⟨n, hn, hnc⟩ := List.mem_filterMap.mp hc
    by_cases hbody : c.body = []
    · refine h c fun d hd => ?_
      rw [children, hbody] at hd
      exact absurd hd List.not_mem_nil
    · have hlt := Node.weights_body_lt hnc hbody
      exact ih _ (Nat.lt_of_lt_of_le hlt (Node.weight_le_weights hn)) c rfl

/-- Two statements that say the same, child by child at every depth. -/
inductive Agrees : Statement → Statement → Prop
  | intro {s t : Statement} (keyword : s.keyword = t.keyword) (header : s.header = t.header)
      (value : s.value = t.value) (bodyText : s.bodyText = t.bodyText)
      (hasBody : s.hasBody = t.hasBody) (children : List.Forall₂ Agrees s.children t.children) :
      Agrees s t

namespace Agrees

variable {s t : Statement}

lemma keyword (h : s.Agrees t) : s.keyword = t.keyword := by
  cases h
  assumption

lemma header (h : s.Agrees t) : s.header = t.header := by
  cases h
  assumption

lemma value (h : s.Agrees t) : s.value = t.value := by
  cases h
  assumption

lemma bodyText (h : s.Agrees t) : s.bodyText = t.bodyText := by
  cases h
  assumption

lemma children (h : s.Agrees t) : List.Forall₂ Agrees s.children t.children := by
  cases h
  assumption

lemma text (h : s.Agrees t) : s.text = t.text := by
  rw [Statement.text, Statement.text, h.keyword, h.value]

lemma refl (s : Statement) : s.Agrees s := by
  induction s using Statement.induction with
  | h s ih => exact ⟨rfl, rfl, rfl, rfl, rfl, List.forall₂_same.mpr ih⟩

end Agrees

/-- **Alike statements** agree. -/
theorem Alike.agrees {s t : Statement} (h : s.Alike t) : s.Agrees t := by
  induction s using Statement.induction generalizing t with
  | h s ih =>
    refine ⟨h.keyword, h.header, h.value, h.bodyText, h.hasBody, ?_⟩
    exact ((List.forall₂_and_left _ _).mpr ⟨fun c hc => hc, h.children⟩).imp
      fun c d ⟨hc, hcd⟩ => ih c hc hcd

end Statement

end NameServerConf
