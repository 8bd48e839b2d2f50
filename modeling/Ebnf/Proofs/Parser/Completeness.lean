import Ebnf.Proofs.Parser.Places
import Ebnf.Proofs.Parser.Soundness

namespace Ebnf

open Ebnf.Frame

namespace Reading

variable {goal : Goal}

def reads? (goal : Goal) (s : Reading) (ts : List Token) : Option Reading := ts.foldlM (read? goal) s

theorem reads?_cons (s : Reading) (t : Token) (ts : List Token) :
    reads? goal s (t :: ts) = (s.read? goal t).bind (reads? goal · ts) := rfl

theorem reads?_append (s : Reading) (ts us : List Token) :
    reads? goal s (ts ++ us) = (reads? goal s ts).bind (reads? goal · us) := List.foldlM_append

/-- The expression has been read from `ts` inside the frames. Its right edge is
still open, but whatever may stand behind it reduces it to one operand. -/
def Holds (s : Reading) (e : Expr Unit) (ts : List Token) (fs : List Frame) : Prop :=
  ∃ p : Expr Span × List Frame, s.pending? = some p ∧
    ∃ e' : Expr Span, e'.bare = e ∧ e'.Stands ts ∧ ∀ k ≤ e.strength, reduce k p.1 p.2 = reduce k e' fs

theorem holds_complete {e : Expr Span} {ts : List Token} (he : e.Stands ts) (fs : List Frame) :
    Holds ⟨.complete e, fs⟩ e.bare ts fs :=
  ⟨_, rfl, e, rfl, he, fun _ _ => rfl⟩

theorem Holds.enter {s : Reading} {e f : Expr Unit} {us ts : List Token} {fs gs : List Frame}
    (h : s.Holds e us fs) (build : Expr Span → Expr Span)
    (hb : ∀ e' : Expr Span, e'.bare = e → e'.Stands us → (build e').bare = f ∧ (build e').Stands ts)
    (hs : f.strength ≤ e.strength) (hr : ∀ e', ∀ k ≤ f.strength, reduce k e' fs = reduce k (build e') gs) :
    s.Holds f ts gs := by
  obtain ⟨p, hp, e', he, hst, hk⟩ := h
  obtain ⟨hbare, hts⟩ := hb e' he hst
  exact ⟨p, hp, build e', hbare, hts, fun k hkf => (hk k (Nat.le_trans hkf hs)).trans (hr e' k hkf)⟩

theorem Holds.join {s : Reading} {e : Expr Unit} {us : List Token} {fs : List Frame} {c : Connective} {t : Token}
    (h : s.Holds e us fs) (ht : t.kind = .mark (.operator (.joining c))) (hs : c.strength ≤ e.strength)
    (hb : Below c.strength fs) (hg : fs = [] → goal.admits c = true) :
    ∃ e' : Expr Span, e'.bare = e ∧ e'.Stands us ∧ s.read? goal t =
      if c = .exception then some ⟨.excepted e' t.span, fs⟩ else some ⟨.operand, .joined e' c :: fs⟩ := by
  obtain ⟨p, hp, e', he, hst, hk⟩ := h
  refine ⟨e', he, hst, ?_⟩
  have ha : (fs.isEmpty && !goal.admits c) = false := by
    cases fs with
    | nil => simp [hg rfl]
    | cons => rfl
  rw [read?_of_pending hp (by rw [ht]; rfl)]
  simp only [readBehind?, ht, hk _ hs, reduce_eq_self c.strength_le_three hb, join?, ha]
  rfl

theorem Holds.close {s : Reading} {e : Expr Unit} {us : List Token} {fs : List Frame} {b : Bracket} {span : Span}
    {opened : Location} {t : Token} (h : s.Holds e us (.inside b span opened :: fs)) (goal : Goal)
    (ht : t.kind = .mark (.closing b)) :
    ∃ e' : Expr Span, e'.bare = e ∧ e'.Stands us ∧
      s.read? goal t = some ⟨.complete (.group b e' (span.hull t.span)), fs⟩ := by
  obtain ⟨p, hp, e', he, hst, hk⟩ := h
  refine ⟨e', he, hst, ?_⟩
  rw [read?_of_pending hp (by rw [ht]; rfl)]
  simp [readBehind?, ht, hk 0 (Nat.zero_le _), reduce, close?]

theorem Holds.settle {s : Reading} {e : Expr Unit} {us : List Token} {t : Token} (h : s.Holds e us [])
    (least : Nat) (ht : t.kind ≠ .mark (.operator .counting)) :
    ∃ e' : Expr Span, e'.bare = e ∧ e'.Stands us ∧ s.settle (.expression least) t = .ok e' := by
  obtain ⟨p, hp, e', he, hst, hk⟩ := h
  refine ⟨e', he, hst, ?_⟩
  rw [settle_of_pending t hp]
  simp [settleOperand, ht, hk 0 (Nat.zero_le _), reduce]

theorem Holds.read?_semicolon {s : Reading} {e : Expr Unit} {us : List Token} {fs : List Frame} {t : Token}
    (h : s.Holds e us fs) (ht : t.kind = .mark .semicolon) : s.read? goal t = none := by
  obtain ⟨p, hp, -⟩ := h
  rw [read?_of_pending hp (by rw [ht]; rfl), readBehind?, ht]

/-- Behind an opening bracket and behind an exception an expression is read as
one that begins inside a frame of its own. -/
theorem reads?_eq_of_starts {s s' : Reading} {e : Expr Unit} {ts : List Token} (hts : ts.map (·.kind) = e.yield)
    (h : ∀ t : Token, t.kind.startsExpression = true → s.read? goal t = s'.read? goal t) :
    reads? goal s ts = reads? goal s' ts := by
  obtain ⟨k, ks, hy, hk⟩ := e.yield_starts
  obtain ⟨t, us, rfl, rfl, -⟩ := List.map_eq_cons_iff.1 (hts.trans hy)
  rw [reads?_cons, reads?_cons, h t hk]

theorem read?_opened {b : Bracket} {span : Span} {opened : Location} {fs : List Frame} {t : Token}
    (ht : t.kind.startsExpression = true) :
    read? goal ⟨.opened b span opened, fs⟩ t = read? goal ⟨.operand, .inside b span opened :: fs⟩ t := by
  have hne : t.kind ≠ .mark (.closing b) := by
    intro h
    rw [h] at ht
    cases ht
  simp [read?, hne]

theorem read?_excepted {l : Expr Span} {minus : Span} {fs : List Frame} {t : Token}
    (ht : t.kind.startsExpression = true) :
    read? goal ⟨.excepted l minus, fs⟩ t = read? goal ⟨.operand, .joined l .exception :: fs⟩ t := by
  simp [read?, ht]

section

variable {e l : Expr Unit} {fs : List Frame} {s s' : Reading} {t : Token} {us ws : List Token}

theorem reads?_group {b : Bracket} {u : Token} (ht : t.kind = .mark (.opening b))
    (hu : u.kind = .mark (.closing b)) (hus : us.map (·.kind) = e.yield)
    (hs : reads? goal ⟨.operand, .inside b t.span t.location :: fs⟩ us = some s)
    (hh : s.Holds e us (.inside b t.span t.location :: fs)) :
    ∃ s', reads? goal ⟨.operand, fs⟩ (t :: (us ++ [u])) = some s' ∧
      s'.Holds (.group b e ()) (t :: (us ++ [u])) fs := by
  obtain ⟨e', rfl, hst, hc⟩ := hh.close goal hu
  refine ⟨_, ?_, holds_complete (.group ht hst hu) fs⟩
  have ho : read? goal ⟨.operand, fs⟩ t = some ⟨.opened b t.span t.location, fs⟩ := by
    simp [read?, readOperand?, ht]
  rw [reads?_cons, ho, Option.bind_some, reads?_append, reads?_eq_of_starts hus fun _ => read?_opened, hs,
    Option.bind_some, reads?_cons, hc]
  rfl

theorem reads?_counted {n : Nat} {u : Token} (ht : t.kind = .integer n)
    (hu : u.kind = .mark (.operator .counting)) (he : e.strength = Operator.counting.strength)
    (hs : reads? goal ⟨.operand, .counted n t.span :: fs⟩ us = some s)
    (hh : s.Holds e us (.counted n t.span :: fs)) :
    reads? goal ⟨.operand, fs⟩ (t :: u :: us) = some s ∧ s.Holds (.counted n () e ()) (t :: u :: us) fs := by
  constructor
  · have ho : read? goal ⟨.operand, fs⟩ t = some ⟨.count n t.span, fs⟩ := by
      simp [read?, readOperand?, ht]
    have hc : read? goal ⟨.count n t.span, fs⟩ u = some ⟨.operand, .counted n t.span :: fs⟩ := by
      simp [read?, hu]
    rw [reads?_cons, ho, Option.bind_some, reads?_cons, hc, Option.bind_some, hs]
  · apply hh.enter (fun e' => .counted n t.span e' (t.span.hull e'.place))
    · rintro e' rfl hst
      exact ⟨rfl, .counted ht hu hst⟩
    · exact Nat.le_of_eq he.symm
    · exact fun _ _ _ => rfl

theorem reads?_without (ht : t.kind = .mark (.operator (.joining .exception)))
    (hl : Connective.exception.strength ≤ l.strength) (hb : Below Connective.exception.strength fs)
    (hg : fs = [] → goal.admits .exception = true) (hs : reads? goal ⟨.operand, fs⟩ us = some s)
    (hh : s.Holds l us fs) :
    ∃ s', reads? goal ⟨.operand, fs⟩ (us ++ [t]) = some s' ∧ s'.Holds (.without l ()) (us ++ [t]) fs := by
  obtain ⟨l', rfl, hst, hj⟩ := hh.join ht hl hb hg
  refine ⟨⟨.excepted l' t.span, fs⟩, ?_, ⟨_, rfl, l'.exceptNothing t.span, rfl, .without hst ht, fun _ _ => rfl⟩⟩
  rw [reads?_append, hs, Option.bind_some, reads?_cons, hj]
  rfl

theorem reads?_binary {c : Connective} {l' : Expr Span} {r : Expr Unit} (hr : c.strength < r.strength)
    (ht : t.kind = .mark (.operator (.joining c))) (hst : l'.Stands us)
    (hs : reads? goal ⟨.operand, fs⟩ us = some s) (hws : ws.map (·.kind) = r.yield)
    (hj : s.read? goal t =
      if c = .exception then some ⟨.excepted l' t.span, fs⟩ else some ⟨.operand, .joined l' c :: fs⟩)
    (hs' : reads? goal ⟨.operand, .joined l' c :: fs⟩ ws = some s') (hh' : s'.Holds r ws (.joined l' c :: fs)) :
    reads? goal ⟨.operand, fs⟩ (us ++ t :: ws) = some s' ∧
      s'.Holds (.binary c l'.bare r ()) (us ++ t :: ws) fs := by
  constructor
  · rw [reads?_append, hs, Option.bind_some, reads?_cons, hj]
    split
    · next hc =>
        subst hc
        rw [Option.bind_some, reads?_eq_of_starts hws fun _ => read?_excepted, hs']
    · rw [Option.bind_some, hs']
  · apply hh'.enter (fun r' => l'.join c r')
    · rintro r' rfl hst'
      exact ⟨rfl, .binary hst ht hst'⟩
    · exact Nat.le_of_lt hr
    · exact fun r' k hk => reduce_joined fs hk

end

/-- A well bound expression is read from its tokens, inside any frames that
take it. -/
theorem reads?_yield {e : Expr Unit} (fs : List Frame) {ts : List Token} (he : e.WellBound)
    (hb : Below e.strength fs) (hg : fs = [] → ∀ c : Connective, e.strength ≤ c.strength → goal.admits c = true)
    (hts : ts.map (·.kind) = e.yield) : ∃ s, reads? goal ⟨.operand, fs⟩ ts = some s ∧ s.Holds e ts fs := by
  -- right operands are read in a frame more, so the frames vary
  induction e generalizing fs ts with
  | atom a place =>
      obtain ⟨t, rfl, ht⟩ := List.map_eq_singleton_iff.1 hts
      refine ⟨⟨.complete (.atom a t.span), fs⟩, ?_, holds_complete (.atom ht) fs⟩
      cases a <;> simp [reads?, read?, readOperand?, ht, Atom.kind]
  | empty b place =>
      obtain ⟨t, us, rfl, ht, hus⟩ := List.map_eq_cons_iff.1 hts
      obtain ⟨u, rfl, hu⟩ := List.map_eq_singleton_iff.1 hus
      exact ⟨⟨.complete (.empty b (t.span.hull u.span)), fs⟩,
        by simp [reads?, read?, readOperand?, ht, hu], holds_complete (.empty ht hu) fs⟩
  | group b e place ih =>
      obtain ⟨t, us, rfl, ht, hus⟩ := List.map_eq_cons_iff.1 hts
      obtain ⟨vs, ws, rfl, hvs, hws⟩ := List.map_eq_append_iff.1 hus
      obtain ⟨u, rfl, hu⟩ := List.map_eq_singleton_iff.1 hws
      obtain ⟨s, hs, hh⟩ := ih (.inside b t.span t.location :: fs) he
        (below_cons.2 e.one_le_strength) (by simp) hvs
      exact reads?_group ht hu hvs hs hh
  | counted n q e place ih =>
      obtain ⟨t, us, rfl, ht, hus⟩ := List.map_eq_cons_iff.1 hts
      obtain ⟨u, vs, rfl, hu, hvs⟩ := List.map_eq_cons_iff.1 hus
      obtain ⟨s, hs, hh⟩ := ih (.counted n t.span :: fs) he.2
        (below_cons.2 (by rw [he.1]; exact Nat.lt_succ_self 3)) (by simp) hvs
      exact ⟨s, reads?_counted ht hu he.1 hs hh⟩
  | without l place ih =>
      obtain ⟨us, vs, rfl, hus, hvs⟩ := List.map_eq_append_iff.1 hts
      obtain ⟨t, rfl, ht⟩ := List.map_eq_singleton_iff.1 hvs
      obtain ⟨s, hs, hh⟩ := ih fs he.2 (hb.mono he.1) (fun hf c hc => hg hf c (Nat.le_trans he.1 hc)) hus
      exact reads?_without ht he.1 hb (fun hf => hg hf _ (Nat.le_refl _)) hs hh
  | binary c l r place ihl ihr =>
      obtain ⟨hcl, hcr, hl, hr⟩ := he
      obtain ⟨us, vs, rfl, hus, hvs⟩ := List.map_eq_append_iff.1 hts
      obtain ⟨t, ws, rfl, ht, hws⟩ := List.map_eq_cons_iff.1 hvs
      obtain ⟨s, hs, hh⟩ := ihl fs hl (hb.mono hcl) (fun hf d hd => hg hf d (Nat.le_trans hcl hd)) hus
      obtain ⟨l', rfl, hst, hj⟩ := hh.join ht hcl hb fun hf => hg hf _ (Nat.le_refl _)
      obtain ⟨s', hs', hh'⟩ := ihr (.joined l' c :: fs) hr (below_cons.2 hcr) (by simp) hws
      exact ⟨s', reads?_binary hcr ht hst hs hws hj hs' hh'⟩

end Reading

theorem Goal.body_admits (c : Connective) : Goal.body.admits c = true := by
  cases c <;> rfl

theorem readOperand?_of_starts (fs : List Frame) {t : Token} (ht : t.kind.startsExpression = true) :
    ∃ s, Reading.readOperand? fs t = some s := by
  rw [Reading.readOperand?]
  split
  all_goals first | exact ⟨_, rfl⟩ | skip
  next h1 h2 h3 h4 h5 =>
    cases hk : t.kind with
    | mark m => cases m <;> simp_all [Kind.startsExpression]
    | _ => simp_all [Kind.startsExpression]

variable {stop : Token}

theorem Phase.read?_within {h : Head} {s s' : Reading} {t : Token} (hs : s.read? .body t = some s') :
    Phase.read? (.within h s) t = some (.inl (.within h s')) := by
  simp [read?, hs]

theorem readRules_within {h : Head} {s s' : Reading} {us ts : List Token} (hs : s.reads? .body us = some s') :
    readRules stop (.within h s) (us ++ ts) = readRules stop (.within h s') ts := by
  induction us generalizing s with
  | nil => cases hs; rfl
  | cons u us ih =>
      rw [Reading.reads?_cons] at hs
      obtain ⟨s₁, h₁, hs⟩ := Option.bind_eq_some_iff.1 hs
      rw [List.cons_append, readRules, Phase.read?_within h₁, ← ih hs]

theorem readRules_body {h : Head} {e : Expr Unit} {us ts : List Token} (hus : us.map (·.kind) = e.yield) :
    readRules stop (.body h) (us ++ ts) = readRules stop (.within h .start) (us ++ ts) := by
  obtain ⟨k, ks, hy, hk⟩ := e.yield_starts
  obtain ⟨u, us, rfl, rfl, -⟩ := List.map_eq_cons_iff.1 (hus.trans hy)
  obtain ⟨s, hs⟩ := readOperand?_of_starts [] hk
  have hne : u.kind ≠ .mark .semicolon := by
    intro h
    rw [h] at hk
    cases hk
  have hb : Phase.read? (.body h) u = some (.inl (.within h s)) := by simp [Phase.read?, hne, hs]
  have hw : Phase.read? (.within h .start) u = some (.inl (.within h s)) := Phase.read?_within hs
  rw [List.cons_append, readRules, readRules, hb, hw]

theorem readRules_definition (stop : Token) (h : Head) {body : Option (Expr Unit)} {us : List Token}
    (ts : List Token) {t : Token} (hw : ∀ e ∈ body, e.WellBound) (hus : us.map (·.kind) = bodyYield body) (ht : t.kind = .mark .semicolon) :
    ∃ body' : Option (Expr Span), body'.map Expr.bare = body ∧ BodyStands body' us ∧
      readRules stop (.body h) (us ++ t :: ts) = (readRules stop .name ts).map (h.rule body' t.span :: ·) := by
  cases body with
  | none =>
      obtain rfl := List.map_eq_nil_iff.1 hus
      exact ⟨none, rfl, .none, by simp [readRules, Phase.read?, ht]⟩
  | some e =>
      obtain ⟨s, hs, hh⟩ := Reading.reads?_yield [] (hw e rfl) (by simp [Below])
        (fun _ c _ => Goal.body_admits c) hus
      obtain ⟨e', rfl, hst, he'⟩ := hh.settle 1 (t := t) (by rw [ht]; decide)
      refine ⟨some e', rfl, .some hst, ?_⟩
      have hr : Phase.read? (.within h s) t = some (.inr (h.rule (some e') t.span)) := by
        have hsettle : s.settle .body t = .ok e' := he'
        rw [Phase.read?, hh.read?_semicolon ht, hsettle]
        simp [ht]
      have hstart : Reading.start.reads? .body us = some s := hs
      rw [readRules_body hus, readRules_within hstart, readRules, hr]

theorem readRules_rule (stop : Token) {r : Rule Unit} {us : List Token} (ts : List Token) (hr : r.WellBound)
    (hus : us.map (·.kind) = r.yield) :
    ∃ r' : Rule Span, r'.bare = r ∧ r'.Stands us ∧
      readRules stop .name (us ++ ts) = (readRules stop .name ts).map (r' :: ·) := by
  obtain ⟨n, us, rfl, hn, hus'⟩ := List.map_eq_cons_iff.1 hus
  obtain ⟨q, us, rfl, hq, hus'⟩ := List.map_eq_cons_iff.1 hus'
  obtain ⟨us, vs, rfl, hb, hvs⟩ := List.map_eq_append_iff.1 hus'
  obtain ⟨t, rfl, ht⟩ := List.map_eq_singleton_iff.1 hvs
  obtain ⟨body, hbody, hst, h⟩ := readRules_definition stop ⟨r.name, n.span⟩ ts hr hb ht
  refine ⟨_, ?_, .mk hn hq hst ht, ?_⟩
  · obtain ⟨name, _, body', _⟩ := r
    subst hbody
    rfl
  · rw [← h]
    simp [readRules, Phase.read?, hn, hq]

theorem readRules_rules {rs : List (Rule Unit)} {segs : List (List Token)} (hr : ∀ r ∈ rs, r.WellBound)
    (hs : List.Forall₂ (fun r us => us.map (·.kind) = r.yield) rs segs) :
    ∃ rs' : List (Rule Span), rs'.map Rule.bare = rs ∧ List.Forall₂ Rule.Stands rs' segs ∧
      readRules stop .name segs.flatten = .ok rs' [] := by
  induction hs with
  | nil => exact ⟨[], rfl, .nil, rfl⟩
  | @cons r us rs segs hus _ ih =>
      obtain ⟨rs', hrs, hm, h⟩ := ih fun r' hr' => hr r' (List.mem_cons_of_mem _ hr')
      obtain ⟨r', hr', hm', h'⟩ := readRules_rule stop segs.flatten (hr r List.mem_cons_self) hus
      exact ⟨r' :: rs', by rw [List.map_cons, hr', hrs], .cons hm' hm, by rw [List.flatten_cons, h', h]; rfl⟩

end Ebnf
