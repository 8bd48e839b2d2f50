import Ebnf.Proofs.Document.Source
import Ebnf.Proofs.Layout.Entries
import Ebnf.Proofs.Layout.Line

namespace Ebnf

open Lexeme

namespace Lexeme

variable {ls : List Lexeme}

theorem proper_of_mem_notes {l : Lexeme} (hl : l.Proper) {c : Text} (hc : c ∈ l.notes) :
    (Lexeme.comment c).Proper := by
  cases l with
  | comment body =>
      rw [List.mem_singleton.1 hc]
      exact hl
  | _ => cases hc

theorem notes_of_kind? {l : Lexeme} {k : Kind} (h : l.kind? = some k) : l.notes = [] := by
  cases l with
  | comment => cases h
  | _ => rfl

theorem flatMap_comments_tokens (before : List Text) (ls : List Lexeme) :
    (tokens before ls).flatMap Prod.fst ++ waiting before ls = before ++ ls.flatMap notes := by
  induction ls generalizing before with
  | nil => simp [tokens, waiting]
  | cons l ls ih =>
      rw [List.flatMap_cons, ← List.append_assoc]
      cases hk : l.kind? with
      | none => rw [tokens_trivia hk, waiting_trivia hk, ih]
      | some k =>
          rw [tokens_token hk, waiting_token hk, List.flatMap_cons, List.append_assoc, ih, notes_of_kind? hk]
          simp

theorem mem_notes_of_mem_comments {n : Nat} {before : List Text} {g : Gist} (hg : g ∈ gists n before ls) {c : Text}
    (hc : c ∈ g.comments) : c ∈ before ++ ls.flatMap notes := by
  have hmem : (g.comments, g.kind) ∈ tokens before ls := by
    rw [← map_gists (n := n)]
    exact List.mem_map_of_mem (f := fun g : Gist => (g.comments, g.kind)) hg
  rw [← flatMap_comments_tokens]
  exact List.mem_append_left _ (List.mem_flatMap.2 ⟨_, hmem, hc⟩)

end Lexeme

def Gist.commentsAt (gs : List Gist) (i : Nat) : List Text := (gs[i]?.map Gist.comments).getD []

namespace Layout

theorem attach_commentsAt (pre gs rest : List Gist) :
    attach (Gist.commentsAt (pre ++ (gs ++ rest))) pre.length (gs.map Gist.kind) =
      gs.map fun g => (g.comments, g.kind) := by
  induction gs generalizing pre with
  | nil => rfl
  | cons g gs ih =>
      have h := ih (pre ++ [g])
      rw [List.length_append, List.length_singleton, List.append_assoc] at h
      have hg : Gist.commentsAt (pre ++ (g :: gs ++ rest)) pre.length = g.comments := by simp [Gist.commentsAt]
      rw [List.map_cons, List.map_cons, attach, hg]
      exact congrArg _ h

/-- A rule in its passage, with the notes at the indices of its tokens. -/
def NotedAt (notes : Nat → List Text) (source : Text) (x : Nat × Rule Span) (q : Passage) : Prop :=
  tokens q.notes q.body = attach notes x.1 x.2.yield ∧ x.2.place.slice source = spell q.body ∧
    q.kinds = x.2.yield

theorem NotedAt.notes_eq {notes : Nat → List Text} {source : Text} {x : Nat × Rule Span} {q : Passage}
    (h : NotedAt notes source x q) : q.notes = notes x.1 := by
  obtain ⟨k, ts, -, ht⟩ := q.exists_tokens
  have hy : x.2.yield = .identifier x.2.name :: x.2.yield.tail := rfl
  have hn := h.1
  rw [ht, hy, attach] at hn
  exact (Prod.mk.inj (List.cons.inj hn).1).1

theorem notedAt_of_laid {n : Nat} {rs : List (Rule Span)} {ps : List Passage} (h : Passage.Laid n rs ps)
    {before : Text} (hn : before.byteLength = n) (pre rest : List Gist) (trail : List Lexeme) :
    List.Forall₂ (NotedAt (Gist.commentsAt (pre ++ ((Passage.gistsFrom n ps).flatten ++ rest)))
      (before ++ spell (Passage.allLexemes ps trail))) (ruleStarts pre.length rs) ps := by
  induction h generalizing before pre with
  | nil => exact .nil
  | @cons n r rs q ps hk hp _ ih =>
      have hlen : pre.length + r.yield.length = (pre ++ q.gists n).length := by
        rw [List.length_append, ← hk, ← q.map_kind_gists n, List.length_map]
      have hnext : (before ++ spell q.lexemes).byteLength = n + q.size := by
        rw [Text.byteLength_append, hn, Passage.size]
      have hrest := ih hnext (pre ++ q.gists n)
      rw [Passage.gistsFrom, List.flatten_cons, Passage.allLexemes_cons, spell_append, ruleStarts, hlen]
      rw [List.append_assoc, List.append_assoc] at hrest
      refine .cons ⟨?_, ?_, hk⟩ (by rwa [List.append_assoc])
      · rw [← hk, ← q.map_kind_gists n, List.append_assoc, attach_commentsAt]
        exact map_gists.symm
      · have hs := Span.slice_append (before ++ spell q.lead) (spell q.body) (spell (Passage.allLexemes ps trail))
        rw [hp, Passage.place, Passage.size_eq, ← hn, Passage.lexemes, spell_append]
        simpa [Nat.add_assoc] using hs

end Layout

end Ebnf
