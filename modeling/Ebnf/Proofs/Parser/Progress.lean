import Ebnf.Proofs.Parser.Completeness

namespace Ebnf

namespace Reading

variable {goal : Goal} {t : Token}

theorem readOperand?_eof (fs : List Frame) (ht : t.kind = .eof) : readOperand? fs t = none := by
  simp [readOperand?, ht]

theorem readBehind?_eof (e : Expr Span) (fs : List Frame) (ht : t.kind = .eof) :
    readBehind? goal e fs t = none := by
  simp [readBehind?, ht]

theorem read?_eof (s : Reading) (ht : t.kind = .eof) : s.read? goal t = none := by
  obtain ⟨focus, fs⟩ := s
  cases focus with
  | operand => exact readOperand?_eof fs ht
  | count value span => simp [read?, ht]
  | opened b span location => simp [read?, ht, readOperand?_eof]
  | excepted left minus => simp [read?, ht, Kind.startsExpression, readBehind?_eof]
  | complete e => exact readBehind?_eof e fs ht

end Reading

namespace Phase

def next? (p : Phase) (t : Token) : Option Phase := (p.read? t).map (Sum.elim id fun _ => .name)

def reach? (p : Phase) (ts : List Token) : Option Phase := ts.foldlM next? p

variable {p q : Phase} {t : Token} {us : List Token}

theorem reach?_cons (p : Phase) (t : Token) (ts : List Token) :
    p.reach? (t :: ts) = (p.next? t).bind (·.reach? ts) := rfl

theorem reach?_append (p : Phase) (ts us : List Token) :
    p.reach? (ts ++ us) = (p.reach? ts).bind (·.reach? us) := List.foldlM_append

theorem read?_eof (p : Phase) (ht : t.kind = .eof) : p.read? t = none := by
  cases p with
  | name | equals => simp [read?, ht]
  | body h => simp [read?, ht, Reading.readOperand?_eof]
  | within h s =>
      simp only [read?, s.read?_eof ht, ht]
      cases s.settle .body t <;> simp

theorem ne_eof_of_reach? (h : p.reach? us = some q) : ∀ u ∈ us, u.kind ≠ .eof := by
  induction us generalizing p with
  | nil => simp
  | cons u us ih =>
      rw [reach?_cons] at h
      obtain ⟨p', hp, h⟩ := Option.bind_eq_some_iff.1 h
      refine List.forall_mem_cons.2 ⟨?_, ih h⟩
      intro hu
      rw [next?, read?_eof p hu] at hp
      cases hp

end Phase

open Phase

theorem Outcome.map_map {α β γ : Type} (f : α → β) (g : β → γ) (o : Outcome α) :
    (o.map f).map g = o.map fun a => g (f a) := by
  cases o <;> rfl

/-- Tokens that have been read are done with: nothing behind them is read
otherwise. -/
theorem readRules_reach {p q : Phase} {us : List Token} (h : p.reach? us = some q) :
    ∃ rs, ∀ stop ts, readRules stop p (us ++ ts) = (readRules stop q ts).map (rs ++ ·) := by
  induction us generalizing p with
  | nil =>
      obtain rfl := Option.some.inj h
      refine ⟨[], fun stop ts => ?_⟩
      cases ho : readRules stop p ts <;> simp [ho, Outcome.map]
  | cons u us ih =>
      rw [reach?_cons] at h
      obtain ⟨p', hp, h⟩ := Option.bind_eq_some_iff.1 h
      obtain ⟨rs, hrs⟩ := ih h
      obtain ⟨x, hx, rfl⟩ := Option.map_eq_some_iff.1 hp
      cases x with
      | inl p' => exact ⟨rs, fun stop ts => by rw [List.cons_append, readRules, hx]; exact hrs stop ts⟩
      | inr r =>
          refine ⟨r :: rs, fun stop ts => ?_⟩
          have hname : readRules stop .name (us ++ ts) = (readRules stop q ts).map (rs ++ ·) := hrs stop ts
          rw [List.cons_append, readRules, hx]
          simp only [hname, Outcome.map_map]
          rfl

theorem reach?_of_readRules_ok {stop : Token} {p : Phase} {us rest : List Token} {rs : List (Rule Span)}
    (h : readRules stop p us = .ok rs rest) : p.reach? us = some .name := by
  induction us generalizing p rs with
  | nil => cases p with
      | name => rfl
      | _ => cases h
  | cons u us ih =>
      rw [readRules] at h
      rw [reach?_cons, next?]
      split at h
      · next q hq =>
          rw [hq]
          exact ih h
      · next r hr =>
          rw [hr]
          cases ho : readRules stop .name us with
          | error e rest' => rw [ho] at h; cases h
          | ok rs' rest' =>
              rw [ho] at h
              obtain ⟨-, rfl⟩ := Outcome.ok.inj h
              exact ih (p := .name) ho
      · cases h

theorem readRules_append {stop : Token} {us rest : List Token} {rs : List (Rule Span)}
    (h : readRules stop .name us = .ok rs rest) (stop' : Token) (ts : List Token) :
    readRules stop' .name (us ++ ts) = (readRules stop' .name ts).map (rs ++ ·) := by
  obtain ⟨rs', hrs⟩ := readRules_reach (reach?_of_readRules_ok h)
  have hread := hrs stop []
  rw [List.append_nil, h, readRules, Outcome.map, List.append_nil] at hread
  rw [(Outcome.ok.inj hread).1]
  exact hrs stop' ts

/-- A token that ends a reading of rules: it cannot be read, and rules are not
complete in front of it if it is the end. -/
structure Phase.Refuses (p : Phase) (t : Token) : Prop where
  unread : p.read? t = none
  incomplete : t.kind = .eof → p ≠ .name

theorem readRules_error {stop : Token} {p : Phase} {ts rest : List Token} {e : ParseError}
    (hstop : stop.kind = .eof) (hts : ∀ t ∈ ts, t.kind ≠ .eof) (h : readRules stop p ts = .error e rest) :
    ∃ us t vs q, ts ++ [stop] = us ++ t :: vs ∧ p.reach? us = some q ∧ q.Refuses t ∧ q.refusal t = e := by
  induction ts generalizing p with
  | nil =>
      refine ⟨[], stop, [], p, rfl, rfl, ⟨p.read?_eof hstop, ?_⟩, ?_⟩
      · rintro - rfl
        cases h
      · cases p with
        | name => cases h
        | _ => exact (Outcome.error.inj h).1
  | cons t ts ih =>
      obtain ⟨ht, hts⟩ := List.forall_mem_cons.1 hts
      have hcons {p' : Phase} (hp : p.next? t = some p') (h' : readRules stop p' ts = .error e rest) :
          ∃ us u vs q, t :: ts ++ [stop] = us ++ u :: vs ∧ p.reach? us = some q ∧ q.Refuses u ∧
            q.refusal u = e := by
        obtain ⟨us, u, vs, q, hs, hq, hr, he⟩ := ih hts h'
        refine ⟨t :: us, u, vs, q, by rw [List.cons_append, hs, List.cons_append], ?_, hr, he⟩
        rw [reach?_cons, hp]
        exact hq
      rw [readRules] at h
      split at h
      · next p' hp => exact hcons (by rw [next?, hp]; rfl) h
      · next r hr =>
          have hn : p.next? t = some .name := by rw [next?, hr]; rfl
          cases ho : readRules stop .name ts with
          | ok rs rest' => rw [ho] at h; cases h
          | error e' rest' =>
              rw [ho] at h
              obtain ⟨rfl, rfl⟩ := Outcome.error.inj h
              exact hcons hn ho
      · next hn =>
          obtain ⟨rfl, -⟩ := Outcome.error.inj h
          exact ⟨[], t, ts ++ [stop], p, rfl, rfl, ⟨hn, fun hk => absurd hk ht⟩, rfl⟩

namespace Cursor

theorem closed_eq_append (ts : List Token) : ∃ us, closed ts = ts ++ us := by
  rw [closed]
  split
  · exact ⟨[], (List.append_nil ts).symm⟩
  · exact ⟨_, rfl⟩

theorem ofTokens_of_eof {us : List Token} {t : Token} (hus : ∀ u ∈ us, u.kind ≠ .eof) (ht : t.kind = .eof)
    (vs : List Token) : (ofTokens (us ++ t :: vs)).ahead = us ∧ (ofTokens (us ++ t :: vs)).stop = t := by
  obtain ⟨ws, hw⟩ := closed_eq_append (us ++ t :: vs)
  have hf : us.find? (·.kind = .eof) = none := by simpa using hus
  simp only [ofTokens, hw, List.append_assoc]
  constructor
  · rw [List.takeWhile_append_of_pos (by simpa using hus)]
    simp [ht]
  · rw [List.find?_append, hf]
    simp [ht]

theorem ofTokens_of_ne_eof {us : List Token} (hus : ∀ u ∈ us, u.kind ≠ .eof) (vs : List Token) :
    ∃ ws, (ofTokens (us ++ vs)).ahead = us ++ ws := by
  obtain ⟨ws, hw⟩ := closed_eq_append (us ++ vs)
  refine ⟨(vs ++ ws).takeWhile (·.kind ≠ .eof), ?_⟩
  simp only [ofTokens, hw, List.append_assoc]
  exact List.takeWhile_append_of_pos (by simpa using hus)

theorem grammar_eq_error {c : Cursor} {e : ParseError}
    (h : ∃ rest, readRules c.stop .name c.ahead = .error e rest) : c.grammar.1 = .error e := by
  obtain ⟨rest, h⟩ := h
  rw [grammar, run, readGrammar, h]
  rfl

/-- A refused token settles the error, whatever stands behind it. -/
theorem grammar_error_of_refuses {us : List Token} {t : Token} {q : Phase} (hq : Phase.name.reach? us = some q)
    (ht : q.Refuses t) (vs : List Token) : (ofTokens (us ++ t :: vs)).grammar.1 = .error (q.refusal t) := by
  have hus := ne_eof_of_reach? hq
  obtain ⟨rs, hrs⟩ := readRules_reach hq
  apply grammar_eq_error
  by_cases hk : t.kind = .eof
  · obtain ⟨ha, hs⟩ := ofTokens_of_eof hus hk vs
    have hend : readRules t q [] = .error (q.refusal t) [] := by
      cases q with
      | name => exact absurd rfl (ht.incomplete hk)
      | _ => rfl
    refine ⟨[], ?_⟩
    rw [ha, hs, ← us.append_nil, hrs, hend]
    rfl
  · have hus' : ∀ u ∈ us ++ [t], u.kind ≠ .eof := by
      intro u hu
      rcases List.mem_append.1 hu with hu | hu
      · exact hus u hu
      · rwa [List.mem_singleton.1 hu]
    obtain ⟨ws, ha⟩ := ofTokens_of_ne_eof hus' vs
    rw [List.append_assoc, List.append_assoc] at ha
    have ha' : (ofTokens (us ++ t :: vs)).ahead = us ++ t :: ws := ha
    refine ⟨t :: ws, ?_⟩
    rw [ha', hrs, readRules, ht.unread]
    rfl

end Cursor

def Kind.token (k : Kind) : Token := ⟨k, default, default, []⟩

namespace Reading

/-- Every reading can be brought to where nothing but brackets is missing. -/
theorem exists_pending (s : Reading) : ∃ us s' p, s.reads? .body us = some s' ∧ s'.pending? = some p := by
  obtain ⟨focus, fs⟩ := s
  let name : Token := (Kind.identifier []).token
  cases focus with
  | operand => exact ⟨[name], _, _, rfl, rfl⟩
  | count value span => exact ⟨[(Kind.mark (.operator .counting)).token, name], _, _, rfl, rfl⟩
  | opened b span location =>
      refine ⟨[(Kind.mark (.closing b)).token], ⟨.complete (.empty b (span.hull default)), fs⟩, _, ?_, rfl⟩
      simp [reads?, read?, Kind.token]
  | excepted | complete => exact ⟨[], _, _, rfl, rfl⟩

theorem exists_settled {s : Reading} {p : Expr Span × List Frame} {e : Expr Span} {fs : List Frame}
    (hp : s.pending? = some p) (hr : reduce 0 p.1 p.2 = reduce 0 e fs) :
    ∃ us s' p' e', s.reads? .body us = some s' ∧ s'.pending? = some p' ∧ reduce 0 p'.1 p'.2 = (e', []) := by
  -- Along the frames: the reduction takes the others, a bracket takes its closer.
  induction fs generalizing s p e with
  | nil => exact ⟨[], s, p, e, rfl, hp, hr⟩
  | cons f fs ih =>
      cases f with
      | joined l c => exact ih hp (hr.trans (if_pos (Nat.zero_le _)))
      | counted n span => exact ih hp hr
      | inside b span opened =>
          let closer : Token := (Kind.mark (.closing b)).token
          have hclose : s.read? .body closer = some ⟨.complete (.group b e (span.hull default)), fs⟩ := by
            rw [read?_of_pending hp rfl]
            simp [closer, Kind.token, readBehind?, hr, reduce, close?]
          obtain ⟨us, s', p', e', hus, hp', hr'⟩ := ih (s := ⟨.complete (.group b e (span.hull default)), fs⟩) rfl rfl
          refine ⟨closer :: us, s', p', e', ?_, hp', hr'⟩
          rw [reads?_cons, hclose]
          exact hus

end Reading

namespace Phase

theorem reach?_within {h : Head} {s s' : Reading} {us : List Token} (hs : s.reads? .body us = some s') :
    (Phase.within h s).reach? us = some (.within h s') := by
  induction us generalizing s with
  | nil => cases hs; rfl
  | cons u us ih =>
      rw [Reading.reads?_cons] at hs
      obtain ⟨s₁, h₁, hs⟩ := Option.bind_eq_some_iff.1 hs
      rw [reach?_cons, next?, read?_within h₁]
      exact ih hs

theorem next?_semicolon {h : Head} {s : Reading} {p : Expr Span × List Frame} {e : Expr Span} {t : Token}
    (hp : s.pending? = some p) (hr : Reading.reduce 0 p.1 p.2 = (e, [])) (ht : t.kind = .mark .semicolon) :
    (Phase.within h s).next? t = some .name := by
  have hread : s.read? .body t = none := by
    rw [Reading.read?_of_pending hp (by rw [ht]; rfl), Reading.readBehind?, ht]
  have hsettle : s.settle .body t = .ok e := by
    rw [Reading.settle_of_pending t hp]
    simp [Reading.settleOperand, Goal.body, ht, hr]
  simp [next?, read?, hread, hsettle, ht]

/-- From every phase there is a way to the end of a rule. -/
theorem exists_completion (p : Phase) : ∃ us, us ≠ [] ∧ p.reach? us = some .name := by
  let semicolon : Token := (Kind.mark .semicolon).token
  cases p with
  | name => exact ⟨[(Kind.identifier []).token, (Kind.mark .equals).token, semicolon], by simp, rfl⟩
  | equals h => exact ⟨[(Kind.mark .equals).token, semicolon], by simp, rfl⟩
  | body h => exact ⟨[semicolon], by simp, rfl⟩
  | within h s =>
      obtain ⟨us, s₁, p, hus, hp⟩ := s.exists_pending
      obtain ⟨vs, s₂, p', e, hvs, hp', hr⟩ := Reading.exists_settled hp rfl
      refine ⟨us ++ (vs ++ [semicolon]), by simp, ?_⟩
      rw [reach?_append, reach?_within hus, Option.bind_some, reach?_append, reach?_within hvs, Option.bind_some,
        reach?_cons, next?_semicolon hp' hr rfl]
      rfl

end Phase

end Ebnf
