import Ebnf.Parser.Descent
import Ebnf.Proofs.Parser.Completeness

namespace Ebnf

open Ebnf.Frame Reading

variable {goal : Goal} {stop t : Token} {ts rest : List Token} {fs : List Frame} {e left : Expr Span}
  {c : Connective} {least : Nat}

theorem readOperand?_of_not_starts (ht : ¬ t.kind.startsExpression = true) : readOperand? fs t = none := by
  rw [readOperand?]
  split
  all_goals first | rfl | simp_all [Kind.startsExpression]

theorem readExpr_refused {s : Reading} (h : s.read? goal t = none) :
    readExpr goal stop s (t :: ts) = .ofExcept (t :: ts) (s.settle goal t) := by
  rw [readExpr, h]

theorem readExpr_congr {s s' : Reading} (h : ∀ t ∈ ts.head?, s.read? goal t = s'.read? goal t)
    (hs : ∀ t, s.settle goal t = s'.settle goal t) : readExpr goal stop s ts = readExpr goal stop s' ts := by
  cases ts with
  | nil => rw [readExpr, readExpr, hs]
  | cons t ts => rw [readExpr, readExpr, h t rfl, hs]

theorem readExpr_of_starts {s : Reading} (hts : Descent.starts ts = true)
    (h : ∀ t : Token, t.kind.startsExpression = true → s.read? goal t = read? goal ⟨.operand, fs⟩ t) :
    readExpr goal stop s ts = readExpr goal stop ⟨.operand, fs⟩ ts := by
  cases ts with
  | nil => cases hts
  | cons t ts =>
      obtain ⟨s', hs'⟩ := readOperand?_of_starts fs hts
      have hread : read? goal ⟨.operand, fs⟩ t = some s' := hs'
      rw [readExpr, readExpr, h t hts, hread]

theorem Goal.ne_operand (hgoal : fs = [] → goal = .expression least) : fs = [] → goal ≠ .operand := by
  intro h
  rw [hgoal h]
  exact Goal.noConfusion

theorem settle_complete (hgoal : fs = [] → goal ≠ .operand) (e : Expr Span) (t : Token) :
    settle goal ⟨.complete e, fs⟩ t =
      if t.kind = .mark (.operator .counting) then .error (.unexpectedAt t Expected.continuations)
      else match reduce 0 e fs with
        | (_, .inside b _ opened :: _) => .error (.mismatchedAt t b opened)
        | (e, _) => .ok e :=
  if_neg fun h => hgoal h.2 h.1

/-- Two operands in their frames that are the same once they are reduced for what
stands behind them. -/
theorem readExpr_complete {e' : Expr Span} {fs' : List Frame} (hr : reduce 0 e fs = reduce 0 e' fs')
    (hc : ∀ t ∈ ts.head?, ∀ c, t.kind = .mark (.operator (.joining c)) →
      reduce c.strength e fs = reduce c.strength e' fs')
    (hgoal : fs = [] → goal ≠ .operand) (hgoal' : fs' = [] → goal ≠ .operand) :
    readExpr goal stop ⟨.complete e, fs⟩ ts = readExpr goal stop ⟨.complete e', fs'⟩ ts := by
  apply readExpr_congr
  · intro t ht
    simp only [read?, readBehind?, hr]
    split
    · next c hk => rw [hc t ht c hk]
    · rfl
    · rfl
  · intro t
    rw [settle_complete hgoal, settle_complete hgoal', hr]

theorem readExpr_excepted (hts : ¬ Descent.starts ts = true) (minus : Span) :
    readExpr goal stop ⟨.excepted left minus, fs⟩ ts =
      readExpr goal stop ⟨.complete (left.exceptNothing minus), fs⟩ ts := by
  apply readExpr_congr
  · intro t ht
    have hk : t.kind.startsExpression = false := by
      rw [Descent.starts, Option.mem_def.1 ht] at hts
      exact Bool.eq_false_iff.2 hts
    exact @read?_of_pending goal t ⟨.excepted left minus, fs⟩ _ rfl hk
  · exact fun t => rfl

theorem read?_join (ht : t.kind = .mark (.operator (.joining c))) (hc : least ≤ c.strength) (hb : Below least fs)
    (hgoal : fs = [] → goal = .expression least) :
    read? goal ⟨.complete left, fs⟩ t =
      some (if c = .exception then ⟨.excepted left t.span, fs⟩ else ⟨.operand, .joined left c :: fs⟩) := by
  have hr : reduce c.strength left fs = (left, fs) := reduce_eq_self c.strength_le_three (hb.mono hc)
  have ha : (fs.isEmpty && !goal.admits c) = false := by
    cases fs with
    | nil => simp [hgoal rfl, Goal.admits, hc]
    | cons f fs => rfl
  simp only [read?, readBehind?, ht, hr, join?, ha, Bool.false_eq_true, if_false]
  split <;> rfl

theorem readExpr_join (ht : t.kind = .mark (.operator (.joining c))) (hc : least ≤ c.strength) (hb : Below least fs)
    (hgoal : fs = [] → goal = .expression least) (hts : c = .exception → Descent.starts ts = true) :
    readExpr goal stop ⟨.complete left, fs⟩ (t :: ts) =
      readExpr goal stop ⟨.operand, .joined left c :: fs⟩ ts := by
  rw [readExpr, read?_join ht hc hb hgoal]
  dsimp only
  split
  · next h =>
      subst h
      exact readExpr_of_starts (hts rfl) fun t ht => read?_excepted ht
  · rfl

theorem readExpr_except (ht : t.kind = .mark (.operator (.joining .exception)))
    (hc : least ≤ Connective.exception.strength) (hb : Below least fs) (hgoal : fs = [] → goal = .expression least)
    (hts : ¬ Descent.starts ts = true) :
    readExpr goal stop ⟨.complete left, fs⟩ (t :: ts) =
      readExpr goal stop ⟨.complete (left.exceptNothing t.span), fs⟩ ts := by
  rw [readExpr, read?_join ht hc hb hgoal]
  exact readExpr_excepted hts _

namespace Descent

/-- No operator that binds as strongly as `least` stands there. -/
def Halts (least : Nat) (ts : List Token) : Prop :=
  ∀ t ∈ ts.head?, t.kind ≠ .mark (.operator .counting) ∧
    ∀ c, t.kind = .mark (.operator (.joining c)) → c.strength < least

theorem exists_of_bind {m n : Nat} {d : Descent m}
    {f : Expr Span → (rest : List Token) → rest.length ≤ m → Descent n} (h : (d.bind f).1 = .ok e rest) :
    ∃ e' rest' hr, (f e' rest' hr).1 = .ok e rest := by
  obtain ⟨o, ho⟩ := d
  cases o with
  | ok e' rest' => exact ⟨e', rest', ho, h⟩
  | error => cases h

theorem halts_climb (stop : Token) (least : Nat) (left : Expr Span) :
    (ts : List Token) → (climb stop least left ts).1 = .ok e rest → Halts least rest
  | [], h => by
      rw [climb] at h
      cases h
      simp [Halts]
  | t :: ts, h => by
      rw [climb] at h
      split at h
      · cases h
      · next c hk =>
          split at h
          · next hc =>
              cases h
              simp [Halts, hk, hc]
          · split at h
            · exact halts_climb stop least _ ts h
            · obtain ⟨right, rest', hr, h⟩ := exists_of_bind h
              exact halts_climb stop least _ rest' h
      · next hcount hjoin =>
          cases h
          simpa [Halts] using ⟨hcount, fun c hc => absurd hc (hjoin c)⟩
termination_by ts => ts.length
decreasing_by all_goals rw [List.length_cons]; omega

theorem halts_expression {stop : Token} {least : Nat} {ts : List Token}
    (h : (expression stop least ts).1 = .ok e rest) : Halts least rest := by
  rw [expression] at h
  obtain ⟨left, rest', hr, h⟩ := exists_of_bind h
  exact halts_climb stop least left rest' h

/-- Reading from the state `s` on comes to what the recursion gives: the same
error, or the value as an operand in these frames. -/
def Refines (goal : Goal) (stop : Token) (s : Reading) (fs : List Frame) (ts : List Token) :
    Outcome (Expr Span) → Prop
  | .ok e rest => readExpr goal stop s ts = readExpr goal stop ⟨.complete e, fs⟩ rest
  | .error e rest => readExpr goal stop s ts = .error e rest

theorem Refines.of_eq {s s' : Reading} {ts' : List Token} {o : Outcome (Expr Span)}
    (h : Refines goal stop s' fs ts' o) (hs : readExpr goal stop s ts = readExpr goal stop s' ts') :
    Refines goal stop s fs ts o := by
  cases o with
  | ok e rest => exact hs.trans h
  | error e rest => exact hs.trans h

theorem Refines.bind {m n : Nat} {s : Reading} {gs : List Frame} {d : Descent m}
    {f : Expr Span → (rest : List Token) → rest.length ≤ m → Descent n} (hd : Refines goal stop s gs ts d.1)
    (hf : ∀ e rest h, d.1 = .ok e rest → Refines goal stop ⟨.complete e, gs⟩ fs rest (f e rest h).1) :
    Refines goal stop s fs ts (d.bind f).1 := by
  obtain ⟨o, ho⟩ := d
  cases o with
  | ok e rest => exact (hf e rest ho rfl).of_eq hd
  | error e rest => exact hd

theorem Refines.readExpr_eq {s : Reading} {o : Outcome (Expr Span)} (h : Refines goal stop s [] ts o)
    (hend : ∀ e rest, o = .ok e rest → readExpr goal stop ⟨.complete e, []⟩ rest = .ok e rest) :
    readExpr goal stop s ts = o := by
  cases o with
  | ok e rest => exact h.trans (hend e rest rfl)
  | error e rest => exact h

theorem refines_error {s : Reading} {x : ParseError} (hread : s.read? goal t = none)
    (hsettle : s.settle goal t = .error x) : Refines goal stop s fs (t :: ts) (.error x (t :: ts)) := by
  show readExpr goal stop s (t :: ts) = .error x (t :: ts)
  rw [readExpr_refused hread, hsettle]
  rfl

theorem refines_star (hgoal : fs = [] → goal ≠ .operand) (left : Expr Span)
    (ht : t.kind = .mark (.operator .counting)) :
    Refines goal stop ⟨.complete left, fs⟩ fs (t :: ts)
      (.error (.unexpectedAt t Expected.continuations) (t :: ts)) := by
  apply refines_error
  · simp only [read?, readBehind?, ht]
  · rw [settle_complete hgoal, if_pos ht]

theorem refines_joined (hgoal : fs = [] → goal ≠ .operand) {right : Expr Span} {o : Outcome (Expr Span)}
    (hts : Halts (c.strength + 1) ts) (h : Refines goal stop ⟨.complete (left.join c right), fs⟩ fs ts o) :
    Refines goal stop ⟨.complete right, .joined left c :: fs⟩ fs ts o := by
  apply h.of_eq
  refine readExpr_complete (reduce_joined fs (Nat.zero_le _)) (fun t ht c' hc' => ?_) (fun h => ?_) hgoal
  · exact reduce_joined fs (Nat.le_of_lt_succ ((hts t ht).2 c' hc'))
  · cases h

theorem refines_count (n : Nat) (span : Span) (hts : ∀ t ∈ ts.head?, t.kind ≠ .mark (.operator .counting)) :
    Refines goal stop ⟨.count n span, fs⟩ fs ts (.error (.unexpectedAt (ts.headD stop) [.countMark]) ts) := by
  cases ts with
  | nil => rfl
  | cons t ts => exact refines_error (if_neg (hts t rfl)) rfl

theorem refines_unstarted (hts : ¬ starts ts = true) :
    Refines goal stop ⟨.operand, fs⟩ fs ts (.error (.unexpectedAt (ts.headD stop) Expected.starts) ts) := by
  cases ts with
  | nil => rfl
  | cons t ts => exact refines_error (readOperand?_of_not_starts hts) rfl

theorem close_nil (hstop : stop.kind = .eof) (b : Bracket) (opening : Token) (inner : Option (Expr Span)) :
    close stop b opening inner [] = error (.mismatchedAt stop b opening.location) [] := by
  have hne : stop.kind ≠ .mark (.closing b) := by rw [hstop]; exact Kind.noConfusion
  exact if_neg hne

theorem refines_close (hstop : stop.kind = .eof) (b : Bracket) (opening : Token) (e : Expr Span)
    (hts : Halts 1 ts) :
    Refines goal stop ⟨.complete e, .inside b opening.span opening.location :: fs⟩ fs ts
      (close stop b opening (some e) ts).1 := by
  have hsettle (t : Token) (ht : t.kind ≠ .mark (.operator .counting)) :
      settle goal ⟨.complete e, .inside b opening.span opening.location :: fs⟩ t =
        .error (.mismatchedAt t b opening.location) := by
    simp [settle, settleOperand, ht, reduce]
  cases ts with
  | nil =>
      have hne : stop.kind ≠ .mark (.operator .counting) := by rw [hstop]; exact Kind.noConfusion
      rw [close_nil hstop]
      show readExpr _ _ _ [] = _
      rw [readExpr, hsettle stop hne]
      rfl
  | cons t ts =>
      obtain ⟨hcount, hjoin⟩ := hts t rfl
      rw [close]
      split
      · next hk =>
          rw [List.headD_cons] at hk
          show readExpr _ _ _ (t :: ts) = _
          rw [readExpr]
          simp [read?, readBehind?, hk, reduce, close?]
      · next hk =>
          rw [List.headD_cons] at hk
          refine refines_error ?_ (hsettle t hcount)
          simp only [read?, readBehind?]
          split
          · next c hc => exact absurd (hjoin c hc) (Nat.not_lt_of_le c.one_le_strength)
          · next b' hb' =>
              have hne : b' ≠ b := by
                rintro rfl
                exact hk hb'
              simp [reduce, close?, hne]
          · rfl

theorem refines_close_none (hstop : stop.kind = .eof) (b : Bracket) (opening : Token)
    (hts : ¬ starts ts = true) :
    Refines goal stop ⟨.opened b opening.span opening.location, fs⟩ fs ts (close stop b opening none ts).1 := by
  cases ts with
  | nil =>
      rw [close_nil hstop]
      rfl
  | cons t ts =>
      rw [close]
      split
      · next hk =>
          rw [List.headD_cons] at hk
          show readExpr _ _ _ (t :: ts) = _
          rw [readExpr]
          simp [read?, hk]
      · next hk =>
          rw [List.headD_cons] at hk
          refine refines_error ?_ rfl
          simp only [read?, if_neg hk, readOperand?_of_not_starts hts]

mutual

theorem expression_refines {goal : Goal} {least : Nat} {fs : List Frame} (hstop : stop.kind = .eof)
    (hb : Below least fs) (hgoal : fs = [] → goal = .expression least) (ts : List Token) :
    Refines goal stop ⟨.operand, fs⟩ fs ts (expression stop least ts).1 := by
  rw [expression]
  refine (operand_refines hstop (Goal.ne_operand hgoal) ts).bind fun left rest h _ => ?_
  exact climb_refines hstop hb hgoal left rest
termination_by (ts.length, 3)
decreasing_by
  · exact .right _ (by decide)
  · exact .right' _ (le_of_le_pred h) (by decide)

theorem climb_refines {goal : Goal} {least : Nat} {fs : List Frame} (hstop : stop.kind = .eof)
    (hb : Below least fs) (hgoal : fs = [] → goal = .expression least) (left : Expr Span) :
    (ts : List Token) → Refines goal stop ⟨.complete left, fs⟩ fs ts (climb stop least left ts).1
  | [] => by
      rw [climb]
      rfl
  | t :: ts => by
      rw [climb]
      split
      · next hk => exact refines_star (Goal.ne_operand hgoal) left hk
      · next c hk =>
          split
          · rfl
          · next hc =>
              have hc := Nat.le_of_not_lt hc
              split
              · next h =>
                  obtain ⟨rfl, hts⟩ := h
                  exact (climb_refines hstop hb hgoal _ ts).of_eq (readExpr_except hk hc hb hgoal hts)
              · next h =>
                  have hstarts : c = .exception → starts ts = true :=
                    fun hc => Decidable.of_not_not fun hts => h ⟨hc, hts⟩
                  have hright : Refines goal stop ⟨.operand, .joined left c :: fs⟩ (.joined left c :: fs) ts
                      (expression stop (c.strength + 1) ts).1 :=
                    expression_refines hstop (below_cons.2 (Nat.lt_succ_self _)) (fun h => by cases h) ts
                  refine (hright.of_eq (readExpr_join hk hc hb hgoal hstarts)).bind fun right rest hr hd => ?_
                  exact refines_joined (Goal.ne_operand hgoal) (halts_expression hd)
                    (climb_refines hstop hb hgoal _ rest)
      · rfl
termination_by ts => (ts.length, 0)
decreasing_by all_goals exact .left _ _ (by rw [List.length_cons]; omega)

theorem operand_refines {goal : Goal} {fs : List Frame} (hstop : stop.kind = .eof)
    (hgoal : fs = [] → goal ≠ .operand) (ts : List Token) :
    Refines goal stop ⟨.operand, fs⟩ fs ts (operand stop ts).1 := by
  rw [operand.eq_def]
  split
  · next n span _ _ _ _ _ ts =>
      have hright : Refines goal stop ⟨.operand, .counted n span :: fs⟩ (.counted n span :: fs) ts
          (expression stop (Operator.counting.strength + 1) ts).1 :=
        expression_refines hstop (below_cons.2 (Nat.lt_succ_of_lt (Nat.lt_succ_self 3))) (fun h => by cases h) ts
      refine (hright.of_eq rfl).bind fun e rest _ _ => ?_
      exact readExpr_complete rfl (fun _ _ _ _ => rfl) (fun h => by cases h) hgoal
  · next n span _ _ ts hts =>
      refine (refines_count n span fun t ht hk => ?_).of_eq rfl
      obtain ⟨kind, _, _, _⟩ := t
      obtain rfl : kind = _ := hk
      exact hts _ _ _ _ (List.eq_cons_of_mem_head? ht)
  · next hint =>
      refine atom_refines hstop ts fun t ht n hn => ?_
      obtain ⟨kind, _, _, _⟩ := t
      obtain rfl : kind = _ := hn
      exact hint _ _ _ _ _ (List.eq_cons_of_mem_head? ht)
termination_by (ts.length, 2)

theorem atom_refines {goal : Goal} {fs : List Frame} (hstop : stop.kind = .eof) (ts : List Token)
    (hts : ∀ t ∈ ts.head?, ∀ n, t.kind ≠ .integer n) :
    Refines goal stop ⟨.operand, fs⟩ fs ts (atom stop ts).1 := by
  rw [atom.eq_def]
  split
  · rfl
  · rfl
  · rfl
  · next b span location trivia ts =>
      exact (group_refines hstop b ⟨.mark (.opening b), span, location, trivia⟩ ts).of_eq rfl
  · next hname hterminal hspecial hopening =>
      apply refines_unstarted
      cases ts with
      | nil => exact Bool.false_ne_true
      | cons t ts =>
          obtain ⟨kind, _, _, _⟩ := t
          intro hk
          cases kind with
          | identifier => exact hname _ _ _ _ _ rfl
          | terminal => exact hterminal _ _ _ _ _ _ rfl
          | special => exact hspecial _ _ _ _ _ rfl
          | integer n => exact hts _ rfl n rfl
          | eof => cases hk
          | mark m => cases m with
              | opening => exact hopening _ _ _ _ _ rfl
              | _ => cases hk
termination_by (ts.length, 1)

theorem group_refines {goal : Goal} {fs : List Frame} (hstop : stop.kind = .eof) (b : Bracket) (opening : Token)
    (ts : List Token) :
    Refines goal stop ⟨.opened b opening.span opening.location, fs⟩ fs ts (group stop b opening ts).1 := by
  rw [group]
  split
  · next hts =>
      have hinner : Refines goal stop ⟨.operand, .inside b opening.span opening.location :: fs⟩
          (.inside b opening.span opening.location :: fs) ts (expression stop 1 ts).1 :=
        expression_refines hstop (below_cons.2 Nat.one_pos) (fun h => by cases h) ts
      refine (hinner.of_eq (readExpr_of_starts hts fun t ht => read?_opened ht)).bind fun e rest _ hd => ?_
      exact refines_close hstop b opening e (halts_expression hd)
  · next hts => exact refines_close_none hstop b opening hts
termination_by (ts.length, 4)

end

theorem readExpr_halts (hstop : stop.kind = .eof) (hts : Halts least ts) (e : Expr Span) :
    readExpr (.expression least) stop ⟨.complete e, []⟩ ts = .ok e ts := by
  have hsettle (t : Token) (ht : t.kind ≠ .mark (.operator .counting)) :
      settle (.expression least) ⟨.complete e, []⟩ t = .ok e := by
    rw [settle_complete (fun _ => Goal.noConfusion), if_neg ht]
    rfl
  cases ts with
  | nil =>
      have hne : stop.kind ≠ .mark (.operator .counting) := by rw [hstop]; exact Kind.noConfusion
      rw [readExpr, hsettle stop hne]
      rfl
  | cons t ts =>
      obtain ⟨hcount, hjoin⟩ := hts t rfl
      have hread : read? (.expression least) ⟨.complete e, []⟩ t = none := by
        simp only [read?, readBehind?]
        split
        · next c hc => simp [reduce, join?, Goal.admits, hjoin c hc]
        · rfl
        · rfl
      rw [readExpr_refused hread, hsettle t hcount]
      rfl

theorem readExpr_eq_expression (hstop : stop.kind = .eof) (least : Nat) (ts : List Token) :
    readExpr (.expression least) stop .start ts = (expression stop least ts).1 := by
  have h : Refines (.expression least) stop .start [] ts (expression stop least ts).1 :=
    expression_refines hstop (by simp [Below]) (fun _ => rfl) ts
  exact h.readExpr_eq fun e rest ho => readExpr_halts hstop (halts_expression ho) e

theorem readExpr_operand (stop : Token) (e : Expr Span) (ts : List Token) :
    readExpr .operand stop ⟨.complete e, []⟩ ts = .ok e ts := by
  cases ts with
  | nil => rfl
  | cons t ts =>
      have hread : read? .operand ⟨.complete e, []⟩ t = none := by
        simp only [read?, readBehind?]
        split <;> rfl
      rw [readExpr_refused hread]
      rfl

theorem readAtom_cons (hint : ∀ n, t.kind ≠ .integer n) :
    readAtom stop (t :: ts) = readExpr .operand stop .start (t :: ts) := by
  have hstart : read? .operand .start t = readOperand? [] t := rfl
  rw [readAtom]
  split
  · next hk => exact absurd hk (hint _)
  · next hnone _ => rw [readExpr_refused (hstart.trans hnone)]
  · next hsome _ => rw [readExpr, hstart, hsome]

theorem readAtom_eq_atom (hstop : stop.kind = .eof) (ts : List Token) : readAtom stop ts = (atom stop ts).1 := by
  cases ts with
  | nil =>
      rw [atom.eq_def]
      rfl
  | cons t ts =>
      by_cases hint : ∃ n, t.kind = .integer n
      · obtain ⟨n, hn⟩ := hint
        obtain ⟨kind, span, location, trivia⟩ := t
        obtain rfl : kind = _ := hn
        rw [atom.eq_def]
        rfl
      · have hint : ∀ n, t.kind ≠ .integer n := fun n hn => hint ⟨n, hn⟩
        have h : Refines .operand stop .start [] (t :: ts) (atom stop (t :: ts)).1 :=
          atom_refines hstop (t :: ts) (by rintro _ ⟨⟩; exact hint)
        rw [readAtom_cons hint]
        exact h.readExpr_eq fun e rest _ => readExpr_operand stop e rest

theorem readRule_within (hstop : stop.kind = .eof) (h : Head) (s : Reading) (ts : List Token) :
    readRule stop (.within h s) ts = match readExpr .body stop s ts with
      | .ok e rest => finish stop h (some e) rest
      | .error e rest => .error e rest := by
  induction ts generalizing s with
  | nil =>
      rw [readRule, readExpr, Phase.refusal]
      cases s.settle .body stop with
      | ok e => simp [Outcome.ofExcept, finish, hstop]
      | error e => rfl
  | cons t ts ih =>
      rw [readRule, readExpr]
      cases hread : s.read? .body t with
      | some s' =>
          rw [Phase.read?_within hread]
          exact ih s'
      | none =>
          rw [Phase.read?, Phase.refusal, hread]
          cases hs : s.settle .body t with
          | ok e =>
              simp only [Outcome.ofExcept, finish, List.headD_cons, List.tail_cons]
              split <;> simp_all
          | error e => rfl

theorem readRule_body (hstop : stop.kind = .eof) (h : Head) (ts : List Token) :
    readRule stop (.body h) ts =
      if starts ts then match (expression stop 1 ts).1 with
        | .ok e rest => finish stop h (some e) rest
        | .error e rest => .error e rest
      else finish stop h none ts := by
  cases ts with
  | nil => simp [readRule, Phase.refusal, starts, finish, hstop]
  | cons t ts =>
      by_cases hts : t.kind.startsExpression = true
      · have hstarts : starts (t :: ts) = true := hts
        have hsemi : t.kind ≠ .mark .semicolon := by
          intro hk
          rw [hk] at hts
          cases hts
        obtain ⟨s, hs⟩ := readOperand?_of_starts [] hts
        have hread : (Phase.body h).read? t = some (.inl (.within h s)) := by
          simp [Phase.read?, hsemi, hs]
        have hbody : readExpr .body stop s ts = (expression stop 1 (t :: ts)).1 := by
          rw [← readExpr_eq_expression hstop, readExpr, show read? (.expression 1) .start t = some s from hs]
          rfl
        rw [if_pos hstarts, readRule, hread]
        dsimp only
        rw [readRule_within hstop, hbody]
      · have hstarts : ¬ starts (t :: ts) = true := hts
        have hnone : readOperand? [] t = none := readOperand?_of_not_starts hts
        rw [if_neg hstarts, readRule, Phase.read?, Phase.refusal, hnone, finish]
        simp only [List.headD_cons, List.tail_cons]
        by_cases hsemi : t.kind = .mark .semicolon
        · simp [hsemi]
        · by_cases heof : t.kind = .eof <;> simp [hsemi, heof]

theorem readRule_eq_rule (hstop : stop.kind = .eof) (ts : List Token) : readRule stop .name ts = rule stop ts := by
  rw [rule.eq_def]
  split
  · next name span _ _ _ _ _ ts => exact readRule_body hstop ⟨name, span⟩ ts
  · next name span _ _ ts hts =>
      cases ts with
      | nil => rfl
      | cons t ts =>
          have hk : t.kind ≠ .mark .equals := by
            obtain ⟨kind, _, _, _⟩ := t
            rintro ⟨⟩
            exact hts _ _ _ _ rfl
          show readRule stop (.equals ⟨name, span⟩) (t :: ts) = _
          rw [readRule, Phase.read?, if_neg hk]
          rfl
  · next hts hname =>
      cases ts with
      | nil => rfl
      | cons t ts =>
          have hread : Phase.name.read? t = none := by
            obtain ⟨kind, _, _, _⟩ := t
            cases kind with
            | identifier => exact (hname _ _ _ _ _ rfl).elim
            | _ => rfl
          rw [readRule, hread]
          rfl

theorem readRules_cons (hne : p = .name → ts ≠ []) :
    readRules stop p ts = match readRule stop p ts with
      | .ok r rest => (readRules stop .name rest).map (r :: ·)
      | .error e rest => .error e rest := by
  induction ts generalizing p with
  | nil =>
      cases p with
      | name => exact absurd rfl (hne rfl)
      | _ => rfl
  | cons t ts ih =>
      rw [readRules, readRule]
      split
      · next q hq =>
          refine ih ?_
          rintro rfl
          cases Phase.step_of_read? hq
      · rfl
      · rfl

theorem rules_cons (stop t : Token) (ts : List Token) :
    rules stop (t :: ts) = match rule stop (t :: ts) with
      | .ok r rest => (rules stop rest).map (r :: ·)
      | .error e rest => .error e rest := by
  rw [rules]
  split
  · next h => rw [h]
  · next h => rw [h]

theorem readRules_eq_rules (hstop : stop.kind = .eof) : (ts : List Token) → readRules stop .name ts = rules stop ts
  | [] => by rw [readRules, rules]
  | t :: ts => by
      rw [readRules_cons fun _ => List.cons_ne_nil t ts, readRule_eq_rule hstop, rules_cons]
      have hrest := leaves_rule stop (t :: ts)
      cases hr : rule stop (t :: ts) with
      | ok r rest =>
          rw [hr] at hrest
          have hlt : rest.length < (t :: ts).length := Nat.lt_succ_of_le hrest
          dsimp only
          rw [readRules_eq_rules hstop rest]
      | error e rest => rfl
termination_by ts => ts.length
decreasing_by exact hlt

end Descent

end Ebnf
