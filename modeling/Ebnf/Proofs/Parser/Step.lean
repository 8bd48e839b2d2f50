import Ebnf.Grammar.Yield
import Ebnf.Parser.Phase

namespace Ebnf

namespace Reading

variable {goal : Goal} {t : Token} {s s' : Reading} {fs : List Frame} {p : Expr Span × List Frame}

/-- The operand that has been read last, in its frames. -/
def pending? (s : Reading) : Option (Expr Span × List Frame) :=
  match s.focus with
  | .excepted l minus => some (l.exceptNothing minus, s.frames)
  | .complete e => some (e, s.frames)
  | _ => none

theorem read?_of_pending (h : s.pending? = some p) (ht : t.kind.startsExpression = false) :
    s.read? goal t = readBehind? goal p.1 p.2 t := by
  obtain ⟨focus, fs⟩ := s
  cases focus with
  | operand | count | opened => cases h
  | excepted l minus => cases h; simp [read?, ht]
  | complete e => cases h; rfl

theorem settle_of_pending (t : Token) (h : s.pending? = some p) :
    s.settle goal t = settleOperand goal p.1 p.2 t := by
  obtain ⟨focus, fs⟩ := s
  cases focus with
  | operand | count | opened => cases h
  | excepted | complete => cases h; rfl

def room? (s : Reading) : Option (List Frame) :=
  match s.focus with
  | .operand => some s.frames
  | .opened b span location => some (.inside b span location :: s.frames)
  | .excepted left _ => some (.joined left .exception :: s.frames)
  | _ => none

/-- All that one token can do to an expression. It begins an operand where there
is room for one, or it stands behind one that is pending. -/
inductive Step (goal : Goal) (t : Token) : Reading → Reading → Prop
  | atom {s : Reading} {fs : List Frame} {a : Atom} (hs : s.room? = some fs) (ht : t.kind = a.kind) :
      Step goal t s ⟨.complete (.atom a t.span), fs⟩
  | integer {s : Reading} {fs : List Frame} {n : Nat} (hs : s.room? = some fs) (ht : t.kind = .integer n) :
      Step goal t s ⟨.count n t.span, fs⟩
  | opening {s : Reading} {fs : List Frame} {b : Bracket} (hs : s.room? = some fs)
      (ht : t.kind = .mark (.opening b)) : Step goal t s ⟨.opened b t.span t.location, fs⟩
  | star {n : Nat} {span : Span} {fs : List Frame} (ht : t.kind = .mark (.operator .counting)) :
      Step goal t ⟨.count n span, fs⟩ ⟨.operand, .counted n span :: fs⟩
  | empty {b : Bracket} {span : Span} {opened : Location} {fs : List Frame} (ht : t.kind = .mark (.closing b)) :
      Step goal t ⟨.opened b span opened, fs⟩ ⟨.complete (.empty b (span.hull t.span)), fs⟩
  | minus {s : Reading} {p : Expr Span × List Frame} {e : Expr Span} {fs : List Frame} (hs : s.pending? = some p)
      (ht : t.kind = .mark (.operator (.joining .exception)))
      (hr : reduce Connective.exception.strength p.1 p.2 = (e, fs))
      (ha : fs = [] → goal.admits .exception = true) : Step goal t s ⟨.excepted e t.span, fs⟩
  | join {s : Reading} {p : Expr Span × List Frame} {c : Connective} {e : Expr Span} {fs : List Frame}
      (hs : s.pending? = some p) (ht : t.kind = .mark (.operator (.joining c))) (hc : c ≠ .exception)
      (hr : reduce c.strength p.1 p.2 = (e, fs)) (ha : fs = [] → goal.admits c = true) :
      Step goal t s ⟨.operand, .joined e c :: fs⟩
  | close {s : Reading} {p : Expr Span × List Frame} {b : Bracket} {e : Expr Span} {span : Span}
      {opened : Location} {fs : List Frame} (hs : s.pending? = some p) (ht : t.kind = .mark (.closing b))
      (hr : reduce 0 p.1 p.2 = (e, .inside b span opened :: fs)) :
      Step goal t s ⟨.complete (.group b e (span.hull t.span)), fs⟩

theorem step_of_readOperand? (hs : s.room? = some fs) (h : readOperand? fs t = some s') : Step goal t s s' := by
  rw [readOperand?] at h
  split at h
  · next hk =>
      cases h
      exact .atom hs hk
  · next hk =>
      cases h
      exact .atom hs hk
  · next hk =>
      cases h
      exact .atom hs hk
  · next hk =>
      cases h
      exact .integer hs hk
  · next hk =>
      cases h
      exact .opening hs hk
  · cases h

theorem step_of_readBehind? (hs : s.pending? = some p) (h : readBehind? goal p.1 p.2 t = some s') :
    Step goal t s s' := by
  rw [readBehind?] at h
  split at h
  · next c ht =>
      cases hr : reduce c.strength p.1 p.2 with
      | mk e fs =>
          rw [hr, join?] at h
          split at h
          · cases h
          · next hg =>
              have ha : fs = [] → goal.admits c = true := by
                rintro rfl
                simpa using hg
              split at h
              · next hc =>
                  subst hc
                  cases h
                  exact .minus hs ht hr ha
              · next hc =>
                  cases h
                  exact .join hs ht hc hr ha
  · next b ht =>
      cases hr : reduce 0 p.1 p.2 with
      | mk e fs =>
          rw [hr] at h
          cases fs with
          | nil => cases h
          | cons f fs =>
              cases f with
              | joined | counted => cases h
              | inside b' span opened =>
                  rw [close?] at h
                  split at h
                  · next hb =>
                      subst hb
                      cases h
                      exact .close hs ht hr
                  · cases h
  · cases h

theorem step_of_read? (h : s.read? goal t = some s') : Step goal t s s' := by
  obtain ⟨focus, fs⟩ := s
  cases focus with
  | operand => exact step_of_readOperand? rfl h
  | count n span =>
      simp only [read?] at h
      split at h
      · next ht =>
          cases h
          exact .star ht
      · cases h
  | opened b span opened =>
      simp only [read?] at h
      split at h
      · next ht =>
          cases h
          exact .empty ht
      · exact step_of_readOperand? rfl h
  | excepted l minus =>
      simp only [read?] at h
      split at h
      · exact step_of_readOperand? rfl h
      · exact step_of_readBehind? rfl h
  | complete e => exact step_of_readBehind? rfl h

end Reading

namespace Phase

/-- All that one token can do to a rule. The first token of a body is read as if
the expression had begun in front of it. -/
inductive Step (t : Token) : Phase → Phase ⊕ Rule Span → Prop
  | name {n : Text} (ht : t.kind = .identifier n) : Step t .name (.inl (.equals ⟨n, t.span⟩))
  | equals {h : Head} (ht : t.kind = .mark .equals) : Step t (.equals h) (.inl (.body h))
  | first {h : Head} {s : Reading} (hs : Reading.start.read? .body t = some s) : Step t (.body h) (.inl (.within h s))
  | next {h : Head} {s s' : Reading} (hs : s.read? .body t = some s') : Step t (.within h s) (.inl (.within h s'))
  | absent {h : Head} (ht : t.kind = .mark .semicolon) : Step t (.body h) (.inr (h.rule none t.span))
  | ended {h : Head} {s : Reading} {e : Expr Span} (hs : s.settle .body t = .ok e)
      (ht : t.kind = .mark .semicolon) : Step t (.within h s) (.inr (h.rule (some e) t.span))

theorem step_of_read? {p : Phase} {t : Token} {x : Phase ⊕ Rule Span} (h : p.read? t = some x) : Step t p x := by
  cases p with
  | name =>
      simp only [read?] at h
      split at h
      · next hk =>
          cases h
          exact .name hk
      · cases h
  | equals hd =>
      simp only [read?] at h
      split at h
      · next hk =>
          cases h
          exact .equals hk
      · cases h
  | body hd =>
      simp only [read?] at h
      split at h
      · next hk =>
          cases h
          exact .absent hk
      · obtain ⟨s, hs, rfl⟩ := Option.map_eq_some_iff.1 h
        exact .first hs
  | within hd s =>
      simp only [read?] at h
      split at h
      · next hs =>
          cases h
          exact .next hs
      · next he =>
          split at h
          · next hk =>
              cases h
              exact .ended he hk
          · cases h
      · cases h

end Phase

end Ebnf
