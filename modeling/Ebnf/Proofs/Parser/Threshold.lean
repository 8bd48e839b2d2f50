import Ebnf.Proofs.Parser.Admitted

namespace Ebnf

open Ebnf.Frame

variable {goal : Goal} {t : Token}

def Shape.AtLeast (least : Nat) : Shape → Prop
  | .binary (.joining c) _ _ | .without (.joining c) _ => least ≤ c.strength
  | _ => True

theorem Expr.atLeast_shape {α : Type} {least : Nat} (e : Expr α) :
    e.shape.AtLeast least ↔ e.strength = Operator.counting.strength ∨ least ≤ e.strength := by
  cases e with
  | binary c =>
      have hc : c.strength ≠ Operator.counting.strength := Nat.ne_of_lt (Nat.lt_succ_of_le c.strength_le_three)
      simp [shape, strength, Shape.AtLeast, hc]
  | without => simp [shape, strength, Shape.AtLeast, Connective.strength, Operator.strength]
  | atom | counted | group | empty => simp [shape, strength, Shape.AtLeast]

theorem Expr.least_le_or_lt {α : Type} {least : Nat} (e : Expr α) (h : e.shape.AtLeast least) (c : Connective) :
    least ≤ c.strength ∨ c.strength < e.strength := by
  rcases e.atLeast_shape.1 h with h4 | hm
  · exact .inr (h4 ▸ Nat.lt_succ_of_le c.strength_le_three)
  · omega

/-- A token of this kind does not go on with an expression of this least strength
that ends with a token of kind `last`. -/
structure Kind.Ends (least : Nat) (last : Option Kind) (k : Kind) : Prop where
  notCount : k ≠ .mark (.operator .counting)
  weaker : ∀ c : Connective, k = .mark (.operator (.joining c)) → c.strength < least
  noOperand : last = some (.mark (.operator (.joining .exception))) → k.startsExpression = false

theorem Kind.ends_eof (least : Nat) (last : Option Kind) : Kind.eof.Ends least last :=
  ⟨by simp, by simp, fun _ => rfl⟩

namespace Reading

variable {least : Nat} {s : Reading} {p : Expr Span × List Frame} {e : Expr Span}

/-- The last token is a minus only if its operand is still missing. -/
theorem excepted_of_getLast? (hc : s.Consistent) (hp : s.pending? = some p)
    (hl : s.kinds.getLast? = some (.mark (.operator (.joining .exception)))) :
    ∃ l minus fs, s = ⟨.excepted l minus, fs⟩ := by
  obtain ⟨focus, fs⟩ := s
  cases focus with
  | operand | count | opened => cases hp
  | excepted l minus => exact ⟨l, minus, fs, rfl⟩
  | complete e =>
      obtain ⟨hw, hs⟩ := hc.fits
      refine absurd ?_ (Expr.getLast?_yield_of_strength hs hw)
      rwa [kinds, Focus.kinds, List.getLast?_append_of_ne_nil _ e.yield_ne_nil] at hl

theorem settle_atLeast (hc : s.Consistent) (ha : s.Admitted (.expression least))
    (h : s.settle (.expression least) t = .ok e) :
    t.kind ≠ .mark (.operator .counting) ∧ e.shape.AtLeast least := by
  obtain ⟨p, hp⟩ := pending_of_settle h
  rw [settle_of_pending t hp] at h
  rcases settleOperand_eq_ok (behind_of_pending hc hp) h with ⟨hg, -⟩ | ⟨hk, hr⟩
  · cases hg
  refine ⟨hk, e.atLeast_shape.2 ?_⟩
  have hroot := strength_reduce (congrArg Prod.snd hr)
  rw [hr] at hroot
  obtain ⟨focus, fs⟩ := s
  cases hl : fs.getLast? with
  | none =>
      obtain rfl := List.getLast?_eq_none_iff.1 hl
      cases focus with
      | operand | count | opened => cases hp
      | excepted l minus =>
          cases hp
          exact .inr (hroot ▸ of_decide_eq_true (ha.excepted l minus rfl))
      | complete e' =>
          cases hp
          exact .inl (hroot.trans hc.fits.2)
  | some f =>
      obtain rfl : p.2 = fs := by cases focus <;> cases hp <;> rfl
      rw [hl] at hroot
      cases f with
      | joined l c => exact .inr (hroot ▸ of_decide_eq_true (ha.frames l c hl))
      | counted | inside => exact .inl hroot

/-- A connective that is not read behind an expression is weaker than the goal
asks for. -/
theorem weaker_of_read? {c : Connective} (hp : s.pending? = some p) (h : s.read? (.expression least) t = none)
    (ht : t.kind = .mark (.operator (.joining c))) : c.strength < least := by
  rw [read?_of_pending hp (by rw [ht]; rfl), readBehind?, ht] at h
  simp only [join?] at h
  split at h
  · next hg =>
      simpa [Goal.admits] using (Bool.and_eq_true_iff.1 hg).2
  · split at h <;> cases h

theorem ends_of_read? (hc : s.Consistent) (ha : s.Admitted (.expression least))
    (hr : s.read? (.expression least) t = none) (h : s.settle (.expression least) t = .ok e) :
    t.kind.Ends least s.kinds.getLast? := by
  obtain ⟨p, hp⟩ := pending_of_settle h
  refine ⟨(settle_atLeast hc ha h).1, fun c hk => weaker_of_read? hp hr hk, fun hl => ?_⟩
  obtain ⟨l, minus, fs, rfl⟩ := excepted_of_getLast? hc hp hl
  apply Bool.eq_false_iff.2
  intro hk
  obtain ⟨s', hs'⟩ := readOperand?_of_starts (.joined l .exception :: fs) hk
  rw [read?_excepted hk] at hr
  cases hs'.symm.trans hr

theorem Holds.read?_ends {e : Expr Unit} {us : List Token} (h : s.Holds e us []) (hl : s.kinds = e.yield)
    (he : e.shape.AtLeast least) (ht : t.kind.Ends least e.yield.getLast?) :
    s.read? (.expression least) t = none := by
  obtain ⟨p, hp, e', -, -, hr⟩ := h
  have hend (k : Nat) (hk : k ≤ e.strength) : reduce k p.1 p.2 = (e', []) := hr k hk
  have hbehind : s.read? (.expression least) t = readBehind? (.expression least) p.1 p.2 t := by
    obtain ⟨focus, fs⟩ := s
    cases focus with
    | operand | count | opened => cases hp
    | excepted l minus =>
        have hs := ht.noOperand (by rw [← hl]; simp [kinds, Focus.kinds])
        exact read?_of_pending hp hs
    | complete => cases hp; rfl
  rw [hbehind, readBehind?]
  split
  · next c hk =>
      have hweak := ht.weaker c hk
      have hroot := e.least_le_or_lt he c
      rw [hend c.strength (by omega)]
      simp [join?, Goal.admits, hweak]
  · rw [hend 0 (Nat.zero_le _)]
    rfl
  · rfl

end Reading

variable {stop : Token} {ts rest : List Token}

theorem Outcome.ofExcept_eq_ok {α : Type} {r : Except ParseError α} {a : α} :
    Outcome.ofExcept ts r = .ok a rest ↔ r = .ok a ∧ ts = rest := by
  cases r <;> simp [Outcome.ofExcept]

theorem readExpr_eq_ok {s : Reading} {e : Expr Span} : readExpr goal stop s ts = .ok e rest ↔
    ∃ us s', us ++ rest = ts ∧ s.reads? goal us = some s' ∧ (∀ t ∈ rest.head?, s'.read? goal t = none) ∧
      s'.settle goal (rest.headD stop) = .ok e := by
  constructor
  · intro h
    induction ts generalizing s with
    | nil =>
        rw [readExpr, Outcome.ofExcept_eq_ok] at h
        obtain ⟨h, rfl⟩ := h
        exact ⟨[], s, rfl, rfl, by simp, h⟩
    | cons t ts ih =>
        rw [readExpr] at h
        split at h
        · next s₁ h₁ =>
            obtain ⟨us, s', rfl, hs, hr⟩ := ih h
            exact ⟨t :: us, s', rfl, by rw [Reading.reads?_cons, h₁]; exact hs, hr⟩
        · next h₁ =>
            obtain ⟨hset, rfl⟩ := Outcome.ofExcept_eq_ok.1 h
            exact ⟨[], s, rfl, rfl, by simpa using h₁, hset⟩
  · rintro ⟨us, s', rfl, hs, hnone, h⟩
    induction us generalizing s with
    | nil =>
        cases hs
        cases rest with
        | nil => exact Outcome.ofExcept_eq_ok.2 ⟨h, rfl⟩
        | cons t rest =>
            rw [List.nil_append, readExpr, hnone t rfl]
            exact Outcome.ofExcept_eq_ok.2 ⟨h, rfl⟩
    | cons u us ih =>
        rw [Reading.reads?_cons] at hs
        obtain ⟨s₁, h₁, hs⟩ := Option.bind_eq_some_iff.1 hs
        rw [List.cons_append, readExpr, h₁]
        exact ih hs

/-- What is read as an expression from a list of tokens, and where it ends. -/
theorem readExpr_ok_iff {least : Nat} (hstop : stop.kind = .eof) {s : Shape} :
    (∃ e, readExpr (.expression least) stop .start ts = .ok e rest ∧ e.shape = s) ↔
      ∃ us, us ++ rest = ts ∧ us.map (·.kind) = s.yield ∧ s.WellFormed ∧ s.AtLeast least ∧
        (rest.headD stop).kind.Ends least s.yield.getLast? := by
  constructor
  · rintro ⟨e, h, rfl⟩
    obtain ⟨us, s', hus, hs, hnone, hset⟩ := readExpr_eq_ok.1 h
    obtain ⟨hc, ha, hk⟩ := Reading.reads?_follows Reading.start_consistent Reading.start_admitted hs
    have hk : s'.kinds = us.map (·.kind) := hk
    obtain ⟨hw, hy⟩ := Reading.settle_ok hc hset
    have hroot := (Reading.settle_atLeast hc ha hset).2
    refine ⟨us, hus, by rw [e.yield_shape, hy, hk], e.wellFormed_shape.2 hw, hroot, ?_⟩
    rw [e.yield_shape, hy]
    cases rest with
    | nil => exact (congrArg (Kind.Ends least s'.kinds.getLast?) hstop).mpr (Kind.ends_eof _ _)
    | cons t rest => exact Reading.ends_of_read? hc ha (hnone t rfl) hset
  · rintro ⟨us, rfl, hus, hw, hroot, hends⟩
    obtain ⟨e, rfl⟩ := hw.exists_expr
    have he := e.wellFormed_shape.1 hw
    rw [e.yield_shape] at hus hends
    have hadmits (c : Connective) (hc : e.strength ≤ c.strength) : (Goal.expression least).admits c = true := by
      have := e.least_le_or_lt hroot c
      exact decide_eq_true (by omega)
    obtain ⟨s', hs, hh⟩ := Reading.reads?_yield [] he (by simp [Below]) (fun _ => hadmits) hus
    obtain ⟨e', hbare, -, hset⟩ := hh.settle least hends.notCount
    obtain ⟨-, -, hk⟩ := Reading.reads?_follows Reading.start_consistent Reading.start_admitted hs
    refine ⟨e', readExpr_eq_ok.2 ⟨us, s', rfl, hs, ?_, hset⟩, ?_⟩
    · intro t ht
      obtain ⟨rest, rfl⟩ := List.head?_eq_some_iff.1 ht
      exact hh.read?_ends (hk.trans hus) hroot hends
    · rw [← hbare, Expr.shape_bare]

namespace Cursor

def at? (ts : List Token) (i : Nat) : Option Cursor :=
  let c := ofTokens ts
  if i ≤ c.ahead.length then some { c with ahead := c.ahead.drop i } else none

theorem at?_eq_some {i : Nat} {c : Cursor} : at? ts i = some c ↔
    i ≤ (ofTokens ts).ahead.length ∧ { ofTokens ts with ahead := (ofTokens ts).ahead.drop i } = c := by
  simp [at?]

theorem closed_eq_ahead_append (ts : List Token) : (ofTokens ts).stop.kind = .eof ∧
    ∃ behind, closed ts = (ofTokens ts).ahead ++ (ofTokens ts).stop :: behind := by
  have hend : ∃ t ∈ closed ts, t.kind = .eof := by
    rw [closed]
    split
    · next h =>
        obtain ⟨t, ht, hk⟩ := (Option.any_eq_true _ _).1 h
        exact ⟨t, List.mem_of_getLast? ht, of_decide_eq_true hk⟩
    · refine ⟨endOf ts, by simp, ?_⟩
      rw [endOf]
      split <;> rfl
  cases hf : (closed ts).find? (·.kind = .eof) with
  | none =>
      obtain ⟨t, ht, hk⟩ := hend
      exact absurd hk (by simpa using List.find?_eq_none.1 hf t ht)
  | some stop =>
      obtain ⟨hk, front, behind, hc, hfront⟩ := List.find?_eq_some_iff_append.1 hf
      have hk : stop.kind = .eof := of_decide_eq_true hk
      have hahead : (closed ts).takeWhile (·.kind ≠ .eof) = front := by
        rw [hc, List.takeWhile_append_of_pos (by simpa using hfront)]
        simp [hk]
      simp only [ofTokens, hf, hahead, Option.getD_some]
      exact ⟨hk, behind, hc⟩

theorem expression_eq_ok {c d : Cursor} {least : Nat} {e : Expr Span} : c.expression least = (.ok e, d) ↔
    ∃ rest, readExpr (.expression least) c.stop .start c.ahead = .ok e rest ∧ { c with ahead := rest } = d := by
  rw [expression, run]
  cases readExpr (.expression least) c.stop .start c.ahead with
  | ok e' rest => simp [Outcome.toExcept, Outcome.rest]
  | error => simp [Outcome.toExcept]

theorem exists_expression_iff {i : Nat} {c : Cursor} (hc : at? ts i = some c) (least : Nat) (s : Shape) (j : Nat) :
    (∃ e d, c.expression least = (.ok e, d) ∧ e.shape = s ∧ at? ts j = some d) ↔
      j ≤ (ofTokens ts).ahead.length ∧ ∃ e, readExpr (.expression least) (ofTokens ts).stop .start
        ((ofTokens ts).ahead.drop i) = .ok e ((ofTokens ts).ahead.drop j) ∧ e.shape = s := by
  obtain ⟨-, rfl⟩ := at?_eq_some.1 hc
  simp only [expression_eq_ok, at?_eq_some]
  constructor
  · rintro ⟨e, d, ⟨rest, h, rfl⟩, hs, hj, hd⟩
    obtain rfl : (ofTokens ts).ahead.drop j = rest := congrArg Cursor.ahead hd
    exact ⟨hj, e, h, hs⟩
  · rintro ⟨hj, e, h, hs⟩
    exact ⟨e, _, ⟨_, h, rfl⟩, hs, hj, rfl⟩

theorem between_iff {front : List Token} {stop : Token} {ks : List Kind} {i : Nat} (hi : i ≤ front.length)
    (hstop : stop.kind = .eof) (hne : ks ≠ []) (hks : .eof ∉ ks) (behind : List Token) (j : Nat) :
    (j ≤ front.length ∧ ∃ us, us ++ front.drop j = front.drop i ∧ us.map (·.kind) = ks) ↔
      (((front ++ stop :: behind).take j).drop i).map (·.kind) = ks := by
  constructor
  · rintro ⟨hj, us, hus, rfl⟩
    have hfront : front.take i ++ us ++ front.drop j = front.take j ++ front.drop j := by
      rw [List.append_assoc, hus, List.take_append_drop, List.take_append_drop]
    have htake := List.append_cancel_right hfront
    rw [List.take_append_of_le_length hj, ← htake, List.drop_append_of_le_length (by simp [hi])]
    simp
  · rintro rfl
    have hj : j ≤ front.length := by
      by_contra hj
      apply hks
      have hmem : stop ∈ ((front ++ stop :: behind).take j).drop i := by
        rw [List.mem_iff_getElem?]
        refine ⟨front.length - i, ?_⟩
        rw [List.getElem?_drop, Nat.add_sub_cancel' hi, List.getElem?_take_of_lt (by omega)]
        simp
      exact List.mem_map.2 ⟨stop, hmem, hstop⟩
    rw [List.take_append_of_le_length hj] at hne ⊢
    refine ⟨hj, _, ?_, rfl⟩
    have hij : i ≤ j := by
      by_contra hij
      exact hne (List.map_eq_nil_iff.2 (List.drop_eq_nil_of_le (by rw [List.length_take]; omega)))
    conv_rhs => rw [← List.take_append_drop j front]
    rw [List.drop_append_of_le_length (by simp; omega)]

theorem getElem?_place {front : List Token} {j : Nat} (hj : j ≤ front.length) (stop : Token) (behind : List Token) :
    (front ++ stop :: behind)[j]? = some ((front.drop j).headD stop) := by
  rcases Nat.lt_or_eq_of_le hj with hj | rfl
  · rw [List.getElem?_append_left hj, List.drop_eq_getElem_cons hj, List.getElem?_eq_getElem hj]
    rfl
  · simp

theorem getLast?_between {ts : List Token} {ks : List Kind} {i j : Nat} (h : ((ts.take j).drop i).map (·.kind) = ks)
    (hne : ks ≠ []) (hj : j ≤ ts.length) : ks.getLast? = ts[j - 1]?.map (·.kind) := by
  subst h
  have hi : ¬ (ts.take j).length ≤ i := fun hi => hne (by rw [List.drop_eq_nil_of_le hi]; rfl)
  rw [List.length_take_of_le hj] at hi
  rw [List.getLast?_map, List.getLast?_drop, if_neg (by rwa [List.length_take_of_le hj]), List.getLast?_take,
    if_neg (by omega), List.getElem?_eq_getElem (by omega), Option.some_or]

/-- From every place in a list of tokens and for every least strength: what is
read as an expression is exactly the well formed tree with these tokens, with a
root that is strong enough, in front of a token that does not go on with it. -/
theorem expression_ok_iff {i : Nat} {c : Cursor} (hc : at? ts i = some c) (least : Nat) (s : Shape) (j : Nat) :
    (∃ e d, c.expression least = (.ok e, d) ∧ e.shape = s ∧ at? ts j = some d) ↔
      (((closed ts).take j).drop i).map (·.kind) = s.yield ∧ s.WellFormed ∧ s.AtLeast least ∧
        ∃ t, (closed ts)[j]? = some t ∧ t.kind.Ends least ((closed ts)[j - 1]?.map (·.kind)) := by
  obtain ⟨hstop, behind, hclosed⟩ := closed_eq_ahead_append ts
  obtain ⟨hi, -⟩ := at?_eq_some.1 hc
  rw [hclosed, exists_expression_iff hc, readExpr_ok_iff hstop]
  generalize (ofTokens ts).ahead = front at hi
  generalize (ofTokens ts).stop = stop at hstop
  have hbetween := between_iff hi hstop s.yield_ne_nil s.eof_notMem_yield behind j
  have hlast (hj : j ≤ front.length) (h : (((front ++ stop :: behind).take j).drop i).map (·.kind) = s.yield) :=
    getLast?_between h s.yield_ne_nil (by rw [List.length_append]; omega)
  constructor
  · rintro ⟨hj, us, hus, hk, hw, hl, he⟩
    have h := hbetween.1 ⟨hj, us, hus, hk⟩
    exact ⟨h, hw, hl, _, getElem?_place hj stop behind, hlast hj h ▸ he⟩
  · rintro ⟨h, hw, hl, t, ht, he⟩
    obtain ⟨hj, us, hus, hk⟩ := hbetween.2 h
    obtain rfl := Option.some.inj ((getElem?_place hj stop behind).symm.trans ht)
    exact ⟨hj, us, hus, hk, hw, hl, (hlast hj h).symm ▸ he⟩

theorem expression_ok_iff_of_absent_operand :
    let ts : List Token := [.identifier ['r'], .mark .equals, .integer 2, .mark (.operator .counting),
      .identifier ['a'], .mark (.operator (.joining .exception)), .mark (.operator (.joining .concatenation)),
      .identifier ['b']].map Kind.token
    ∃ c, at? ts 2 = some c ∧ ∃ e d, c.expression 3 = (.ok e, d) ∧ at? ts 6 = some d ∧ e.shape =
      .without (.joining .exception) (.binary .counting (.integer 2) (.atom (.identifier ['a']))) := by
  intro ts
  obtain ⟨c, hc⟩ : ∃ c, at? ts 2 = some c := ⟨_, rfl⟩
  have hw : (Shape.without (.joining .exception)
      (.binary .counting (.integer 2) (.atom (.identifier ['a'])))).WellFormed := by
    simp [Shape.WellFormed, Shape.strength, Operator.strength, Connective.strength]
  have hcomma : (Kind.mark (.operator (.joining .concatenation))).Ends 3
      (some (.mark (.operator (.joining .exception)))) := by
    refine ⟨by decide, ?_, fun _ => rfl⟩
    rintro c ⟨⟩
    decide
  obtain ⟨e, d, he, hs, hd⟩ := (expression_ok_iff hc 3 _ 6).2 ⟨rfl, hw, Nat.le_refl 3, _, rfl, hcomma⟩
  exact ⟨c, hc, e, d, he, hd, hs⟩

end Cursor

end Ebnf
