import HAS.DecisionTrees
import HAS.Readers

/-! Every file that can be loaded can be searched: no walk in its trees follows NULL or goes
on for ever, whatever the label. -/
namespace HAS.HTSEngine
open HAS.Bytes HAS.Stdio HAS.Readers

/-- Patterns that came out of the buffer of a token. -/
def Short (patterns : List (List Byte)) : Prop :=
  ∀ pattern ∈ patterns, pattern.length < HTS_MAXBUFLEN

/-- What the lines of a tree make: every node with a question has its two children, which were
made after it. -/
structure Grown (nodes : List HTS_Node) : Prop where
  rooted : 0 < nodes.length
  children : ∀ i node quest, nodes[i]? = some node → node.quest = some quest →
    Short quest.head ∧ ∃ no yes, node.no = some no ∧ node.yes = some yes ∧
      i < no ∧ i < yes ∧ no < nodes.length ∧ yes < nodes.length

theorem childOf_quest (buff : List Byte) : (childOf buff).quest = none := by
  rw [childOf]
  split <;> rfl

theorem Grown.leaf (pdf : Int) : Grown [{ pdf := pdf }] := by
  refine ⟨Nat.one_pos, fun i node quest hnode hquest => ?_⟩
  rw [List.getElem?_singleton] at hnode
  split at hnode
  · rw [← Option.some.inj hnode] at hquest
    exact absurd hquest nofun
  · exact absurd hnode nofun

theorem Grown.grow {nodes : List HTS_Node} (h : Grown nodes) {i : Nat} (hi : i < nodes.length)
    {quest : HTS_Question} (hquest : Short quest.head) (no yes : List Byte) :
    Grown (grow nodes i quest no yes) := by
  have hlen : (HTSEngine.grow nodes i quest no yes).length = nodes.length + 2 := by
    simp [HTSEngine.grow]
  refine ⟨by omega, fun k node q hnode hq => ?_⟩
  rw [hlen]
  by_cases hk : k < nodes.length
  · rw [HTSEngine.grow, List.getElem?_append_left (by simpa using hk), List.getElem?_modify] at hnode
    obtain ⟨old, hold, rfl⟩ := Option.map_eq_some_iff.mp hnode
    by_cases hik : i = k
    · subst hik
      rw [if_pos rfl] at hq ⊢
      obtain rfl := Option.some.inj hq
      exact ⟨hquest, _, _, rfl, rfl, by omega⟩
    · rw [if_neg hik] at hq ⊢
      obtain ⟨hshort, a, b, ha, hb, hlt⟩ := h.children k old q hold hq
      exact ⟨hshort, a, b, ha, hb, by omega⟩
  · rw [HTSEngine.grow, List.getElem?_append_right (by simpa using hk)] at hnode
    have hmem := List.mem_of_getElem? hnode
    simp only [List.mem_cons, List.not_mem_nil, or_false] at hmem
    have hnone : node.quest = none := by
      cases hmem with
      | inl h => exact h ▸ childOf_quest no
      | inr h => exact h ▸ childOf_quest yes
    exact absurd hq (hnone ▸ nofun)

/-- Some node at the end of the walk has a PDF. -/
theorem Grown.search {nodes : List HTS_Node} (h : Grown nodes) (string : List Byte) {steps i : Nat}
    (hi : i < nodes.length) (hsteps : nodes.length ≤ i + steps) :
    ∃ n, searchFrom nodes string steps i = some n := by
  induction steps generalizing i with
  | zero => omega
  | succ steps ih =>
    have hnode := List.getElem?_eq_getElem hi
    rw [searchFrom, hnode, Option.bind_some]
    cases hquest : nodes[i].quest with
    | none => exact ⟨_, rfl⟩
    | some quest =>
      obtain ⟨hshort, no, yes, hno, hyes, hlt⟩ := h.children i _ quest hnode hquest
      obtain ⟨answer, hanswer, -⟩ := question_match_spec quest string
        fun p hp => (hshort p hp).trans (by decide)
      have hnext : ∃ j, (if answer then nodes[i].yes else nodes[i].no) = some j ∧ i < j ∧
          j < nodes.length := by
        cases answer with
        | true => exact ⟨yes, hyes, by omega⟩
        | false => exact ⟨no, hno, by omega⟩
      obtain ⟨j, hj, hij, hjlt⟩ := hnext
      simp only [hanswer, Option.bind_some, hj, List.getElem?_eq_getElem hjlt]
      split
      · exact ⟨_, rfl⟩
      · exact ih hjlt (by omega)

end HAS.HTSEngine
