import Ebnf.Layout.Block
import Mathlib.Data.List.Forall2
import Mathlib.Data.List.Pairwise

namespace Ebnf

open Layout

def ruleStarts : Nat → List (Rule Span) → List (Nat × Rule Span)
  | _, [] => []
  | n, r :: rs => (n, r) :: ruleStarts (n + r.yield.length) rs

theorem ruleStarts_append (n : Nat) (rs ss : List (Rule Span)) :
    ruleStarts n (rs ++ ss) = ruleStarts n rs ++ ruleStarts (n + tokenCount rs) ss := by
  induction rs generalizing n with
  | nil => rfl
  | cons r rs ih => simp [ruleStarts, tokenCount, ih, Nat.add_assoc]

theorem Layout.tokenCount_append (rs ss : List (Rule Span)) :
    tokenCount (rs ++ ss) = tokenCount rs + tokenCount ss := by
  induction rs with
  | nil => simp [tokenCount]
  | cons r rs ih => rw [List.cons_append, tokenCount, tokenCount, ih, Nat.add_assoc]

theorem map_snd_ruleStarts (n : Nat) (rs : List (Rule Span)) : (ruleStarts n rs).map Prod.snd = rs := by
  induction rs generalizing n with
  | nil => rfl
  | cons r rs ih => rw [ruleStarts, List.map_cons, ih]

theorem le_of_mem_ruleStarts {n : Nat} {rs : List (Rule Span)} {x : Nat × Rule Span}
    (h : x ∈ ruleStarts n rs) : n ≤ x.1 := by
  induction rs generalizing n with
  | nil => cases h
  | cons r rs ih =>
      rcases List.mem_cons.1 h with rfl | h
      · exact Nat.le_refl n
      · exact Nat.le_of_add_right_le (ih h)

theorem add_le_of_mem_ruleStarts {n : Nat} {rs : List (Rule Span)} {x : Nat × Rule Span}
    (h : x ∈ ruleStarts n rs) : x.1 + x.2.yield.length ≤ n + tokenCount rs := by
  induction rs generalizing n with
  | nil => cases h
  | cons r rs ih =>
      rw [tokenCount, ← Nat.add_assoc]
      rcases List.mem_cons.1 h with rfl | h
      · exact Nat.le_add_right _ _
      · exact ih h

theorem pairwise_ruleStarts (n : Nat) (rs : List (Rule Span)) :
    (ruleStarts n rs).Pairwise fun x y => x.1 + x.2.yield.length ≤ y.1 := by
  induction rs generalizing n with
  | nil => exact .nil
  | cons r rs ih => exact .cons (fun y hy => le_of_mem_ruleStarts hy) (ih _)

theorem eq_of_mem_ruleStarts {n i : Nat} {rs : List (Rule Span)} {x y : Nat × Rule Span}
    (hx : x ∈ ruleStarts n rs) (hy : y ∈ ruleStarts n rs) (hxi : x.1 ≤ i ∧ i < x.1 + x.2.yield.length)
    (hyi : y.1 ≤ i ∧ i < y.1 + y.2.yield.length) : x = y := by
  by_contra hne
  let Apart (x y : Nat × Rule Span) : Prop := x.1 + x.2.yield.length ≤ y.1 ∨ y.1 + y.2.yield.length ≤ x.1
  have hs : Std.Symm Apart := ⟨fun _ _ h => h.symm⟩
  have hp : (ruleStarts n rs).Pairwise Apart := (pairwise_ruleStarts n rs).imp .inl
  rcases hp.forall hx hy hne with h | h
  · omega
  · omega

namespace Layout

variable {source source' : Text}

theorem exists_blocks (source : Text) (s : Rule Span) (rs : List (Rule Span)) :
    ∃ b bs, blocks source (s :: rs) = (s :: b) :: bs := by
  cases rs with
  | nil => exact ⟨[], [], rfl⟩
  | cons t rs =>
      obtain ⟨b, bs, h⟩ := exists_blocks source t rs
      rw [blocks, h]
      dsimp only
      split
      · exact ⟨[], _, rfl⟩
      · exact ⟨_, bs, rfl⟩

theorem blocks_cons_cons {s : Rule Span} {rs b : List (Rule Span)} {bs : List (List (Rule Span))}
    (h : blocks source (s :: rs) = b :: bs) (r : Rule Span) :
    blocks source (r :: s :: rs) = if parted source r s then [r] :: b :: bs else (r :: b) :: bs := by
  rw [blocks, h]

theorem flatten_blocks (source : Text) (rs : List (Rule Span)) : (blocks source rs).flatten = rs := by
  cases rs with
  | nil => rfl
  | cons r rs =>
      cases rs with
      | nil => rfl
      | cons s rs =>
          obtain ⟨b, bs, h⟩ := exists_blocks source s rs
          have ih := flatten_blocks source (s :: rs)
          rw [h] at ih
          rw [blocks_cons_cons h]
          split
          · exact congrArg (r :: ·) ih
          · exact congrArg (r :: ·) ih

theorem map_blockEntries (w : Nat) (opens : Bool) (i : Nat) (b : List (Rule Span)) :
    (blockEntries w opens i b).map (fun e => (e.index, e.rule)) = ruleStarts i b := by
  induction b generalizing opens i with
  | nil => rfl
  | cons r b ih => rw [blockEntries, List.map_cons, ih, ruleStarts]

theorem map_entriesFrom (align opens : Bool) (i : Nat) (bs : List (List (Rule Span))) :
    (entriesFrom align opens i bs).map (fun e => (e.index, e.rule)) = ruleStarts i bs.flatten := by
  induction bs generalizing opens i with
  | nil => rfl
  | cons b bs ih =>
      rw [entriesFrom, List.map_append, map_blockEntries, ih, List.flatten_cons, ruleStarts_append]

theorem map_entries (align : Bool) (source : Text) (rs : List (Rule Span)) :
    (entries align source rs).map (fun e => (e.index, e.rule)) = ruleStarts 0 rs := by
  rw [entries, map_entriesFrom, flatten_blocks]

theorem mem_ruleStarts_of_mem_entries {align : Bool} {rs : List (Rule Span)} {e : Entry}
    (h : e ∈ entries align source rs) : (e.index, e.rule) ∈ ruleStarts 0 rs := by
  rw [← map_entries align source]
  exact List.mem_map_of_mem h

theorem map_rule_entries (align : Bool) (source : Text) (rs : List (Rule Span)) :
    (entries align source rs).map (·.rule) = rs := by
  have h := congrArg (List.map Prod.snd) (map_entries align source rs)
  rwa [List.map_map, map_snd_ruleStarts] at h

theorem rule_mem_of_mem_entries {align : Bool} {rs : List (Rule Span)} {e : Entry}
    (h : e ∈ entries align source rs) : e.rule ∈ rs := by
  rw [← map_rule_entries align source rs]
  exact List.mem_map_of_mem h

def partings (source : Text) : List (Rule Span) → List Bool
  | r :: s :: rs => parted source r s :: partings source (s :: rs)
  | _ => []

theorem map_opensBlock_blockEntries (w : Nat) (opens : Bool) (i : Nat) (r : Rule Span) (b : List (Rule Span)) :
    (blockEntries w opens i (r :: b)).map (·.opensBlock) = opens :: b.map fun _ => false := by
  have h (j : Nat) : (blockEntries w false j b).map (·.opensBlock) = b.map fun _ => false := by
    induction b generalizing j with
    | nil => rfl
    | cons s b ih => rw [blockEntries, List.map_cons, ih, List.map_cons]
  rw [blockEntries, List.map_cons, h]

/-- An entry opens a block if a blank line stands in front of its rule. The
first one opens none. -/
theorem map_opensBlock_entriesFrom (align opens : Bool) (i : Nat) (r : Rule Span) (rs : List (Rule Span)) :
    (entriesFrom align opens i (blocks source (r :: rs))).map (·.opensBlock) =
      opens :: partings source (r :: rs) := by
  induction rs generalizing opens i r with
  | nil => simp [blocks, entriesFrom, map_opensBlock_blockEntries, partings]
  | cons s rs ih =>
      obtain ⟨b, bs, h⟩ := exists_blocks source s rs
      rw [blocks_cons_cons h, partings]
      by_cases hp : parted source r s = true
      · rw [if_pos hp, ← h, entriesFrom, List.map_append, ih, map_opensBlock_blockEntries, hp]
        rfl
      · have ih' := ih false (i + r.yield.length) s
        rw [h, entriesFrom, List.map_append, map_opensBlock_blockEntries] at ih'
        rw [if_neg hp, entriesFrom, List.map_append, map_opensBlock_blockEntries, Bool.eq_false_iff.2 hp, ← ih',
          Nat.add_assoc]
        rfl

theorem map_opensBlock_tail (align : Bool) (source : Text) (rs : List (Rule Span)) :
    (entries align source rs).tail.map (·.opensBlock) = partings source rs := by
  cases rs with
  | nil => rfl
  | cons r rs => rw [List.map_tail, entries, map_opensBlock_entriesFrom, List.tail_cons]

def SameRoom (r s : Rule Span) : Prop := r.name = s.name ∧ r.yield.length = s.yield.length

def SamePlace (e f : Entry) : Prop := e.index = f.index ∧ e.width = f.width ∧ e.opensBlock = f.opensBlock

variable {rs ss : List (Rule Span)}

theorem map_eq_of_forall₂ {β γ δ : Type} {R : β → γ → Prop} {f : β → δ} {g : γ → δ}
    (hf : ∀ x y, R x y → f x = g y)
    {xs : List β} {ys : List γ} (h : List.Forall₂ R xs ys) : xs.map f = ys.map g := by
  induction h with
  | nil => rfl
  | cons hx _ ih => rw [List.map_cons, List.map_cons, hf _ _ hx, ih]

theorem ruleStarts_congr (n : Nat) (h : List.Forall₂ SameRoom rs ss) :
    (ruleStarts n rs).map (fun x => (x.1, x.2.yield.length)) =
      (ruleStarts n ss).map fun x => (x.1, x.2.yield.length) := by
  induction h generalizing n with
  | nil => rfl
  | cons hr _ ih => rw [ruleStarts, ruleStarts, List.map_cons, List.map_cons, hr.2, ih]

theorem blocks_forall₂ {R : Rule Span → Rule Span → Prop} (h : List.Forall₂ R rs ss)
    (hp : partings source rs = partings source' ss) :
    List.Forall₂ (List.Forall₂ R) (blocks source rs) (blocks source' ss) := by
  induction h with
  | nil => exact .nil
  | @cons r s rs ss hr h ih =>
      cases h with
      | nil => exact .cons (.cons hr .nil) .nil
      | @cons r' s' rs ss hr' h =>
          obtain ⟨hpr, hps⟩ := List.cons.inj hp
          obtain ⟨b, bs, hb⟩ := exists_blocks source r' rs
          obtain ⟨c, cs, hc⟩ := exists_blocks source' s' ss
          have hbc := ih hps
          rw [hb, hc] at hbc
          obtain ⟨hbc, hbcs⟩ := List.forall₂_cons.1 hbc
          rw [blocks_cons_cons hb, blocks_cons_cons hc, hpr]
          split
          · exact .cons (.cons hr .nil) (.cons hbc hbcs)
          · exact .cons (.cons hr hbc) hbcs

theorem blockEntries_forall₂ (w : Nat) (opens : Bool) (i : Nat) (h : List.Forall₂ SameRoom rs ss) :
    List.Forall₂ SamePlace (blockEntries w opens i rs) (blockEntries w opens i ss) := by
  induction h generalizing opens i with
  | nil => exact .nil
  | cons hr _ ih =>
      rw [blockEntries, blockEntries, hr.2]
      exact .cons ⟨rfl, rfl, rfl⟩ (ih _ _)

theorem tokenCount_congr (h : List.Forall₂ SameRoom rs ss) : tokenCount rs = tokenCount ss := by
  induction h with
  | nil => rfl
  | cons hr _ ih => rw [tokenCount, tokenCount, hr.2, ih]

theorem entriesFrom_forall₂ (align opens : Bool) (i : Nat) {bs cs : List (List (Rule Span))}
    (h : List.Forall₂ (List.Forall₂ SameRoom) bs cs) :
    List.Forall₂ SamePlace (entriesFrom align opens i bs) (entriesFrom align opens i cs) := by
  induction h generalizing opens i with
  | nil => exact .nil
  | @cons b c bs cs hb _ ih =>
      have hw : nameWidth align b = nameWidth align c := by
        rw [nameWidth, nameWidth, map_eq_of_forall₂ (fun r s hrs => congrArg List.length hrs.1) hb]
      rw [entriesFrom, entriesFrom, hw, tokenCount_congr hb]
      exact List.rel_append (blockEntries_forall₂ _ _ _ hb) (ih _ _)

theorem entries_forall₂ (align : Bool) (h : List.Forall₂ SameRoom rs ss)
    (hp : partings source rs = partings source' ss) :
    List.Forall₂ SamePlace (entries align source rs) (entries align source' ss) :=
  entriesFrom_forall₂ align false 0 (blocks_forall₂ h hp)

end Layout

end Ebnf
