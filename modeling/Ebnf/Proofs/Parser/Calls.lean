import Ebnf.Proofs.Parser.Reader
import Ebnf.Proofs.Parser.Threshold
import Mathlib.Data.List.TakeWhile

namespace Ebnf

inductive Call
  | atom
  | expression (least : Nat)
  | rule
  | grammar
deriving DecidableEq, Repr

namespace Call

def Value : Call → Type
  | .atom | .expression _ => Expr Span
  | .rule => Rule Span
  | .grammar => Grammar Span

def State : Call → Type
  | .atom => Option Reading
  | .expression _ => Reading
  | .rule => Phase
  | .grammar => List (Rule Span) × Phase

def read : (k : Call) → Token → List Token → Outcome k.Value
  | .atom => readAtom
  | .expression least => fun stop => readExpr (.expression least) stop .start
  | .rule => fun stop => readRule stop .name
  | .grammar => readGrammar

def reader : (k : Call) → Reader k.State k.Value
  | .atom => .operand
  | .expression least => .expression (.expression least)
  | .rule => .rule
  | .grammar => .grammar

def least : Call → Nat
  | .atom | .expression _ => 1
  | .rule | .grammar => 3

theorem least_start (k : Call) : k.reader.least k.reader.start = k.least := by
  cases k <;> rfl

theorem exists_models (k : Call) : ∃ read, k.reader.Models read ∧ ∀ stop, read stop k.reader.start = k.read stop := by
  cases k with
  | atom => exact ⟨_, Reader.operand_models, fun _ => rfl⟩
  | expression least => exact ⟨_, Reader.expression_models _, fun _ => rfl⟩
  | rule => exact ⟨_, Reader.rule_models, fun _ => rfl⟩
  | grammar => exact ⟨_, Reader.grammar_models, fun stop => funext fun ts => (readGrammar_eq stop ts).symm⟩

end Call

/-- One call by index, from the token at `i` on, and where it ends. -/
def callAt? (ts : List Token) (k : Call) (i : Nat) : Option (Except ParseError k.Value × Nat) :=
  k.reader.visit? ts k.reader.start i

def callsAt? (ts : List Token) (ks : List Call) (i : Nat) : Option Nat :=
  ks.foldlM (fun i k => (callAt? ts k i).map (·.2)) i

/-- What holds of a call from index `i` of these tokens that ends at index `j`
with this result. -/
structure Call.Safe (k : Call) (ts : List Token) (i j : Nat) (r : Except ParseError k.Value) : Prop where
  forward : i ≤ j
  inside : j < ts.length
  unended : ∀ t ∈ ts.take j, t.kind ≠ .eof
  blamed : ∀ e location, r = .error e → e.location? = some location → ∃ t, ts[j]? = some t ∧ e.Blames t
  advance : ∀ a, r = .ok a → i + k.least ≤ j

namespace Cursor

def call (c : Cursor) : (k : Call) → Except ParseError k.Value × Cursor
  | .atom => c.atom
  | .expression least => c.expression least
  | .rule => c.rule
  | .grammar => c.grammar

def after (c : Cursor) (ks : List Call) : Cursor := ks.foldl (fun c k => (c.call k).2) c

theorem call_eq_run (c : Cursor) (k : Call) : c.call k = c.run k.read := by
  cases k <;> rfl

variable {ts : List Token} {i : Nat} {c : Cursor}

theorem ne_eof_of_mem_ahead (ts : List Token) : ∀ t ∈ (ofTokens ts).ahead, t.kind ≠ .eof := by
  intro t ht
  simpa using List.mem_takeWhile_imp ht

/-- A call by index is the call of the cursor at this place, whatever stands
behind the first end token. -/
theorem exists_callAt? (hc : at? ts i = some c) (k : Call) : ∃ j, at? ts j = some (c.call k).2 ∧ ∀ behind,
    callAt? ((ofTokens ts).ahead ++ (ofTokens ts).stop :: behind) k i = some ((c.call k).1, j) := by
  obtain ⟨hi, rfl⟩ := at?_eq_some.1 hc
  obtain ⟨read, hmodels, hstart⟩ := k.exists_models
  have hus : ∀ u ∈ (ofTokens ts).ahead.drop i, u.kind ≠ .eof := fun u hu =>
    ne_eof_of_mem_ahead ts u (List.mem_of_mem_drop hu)
  obtain ⟨vs, hvs, hvisit⟩ := hmodels.visit?_eq (closed_eq_ahead_append ts).1 hus ((ofTokens ts).ahead.take i)
    k.reader.start
  rw [hstart] at hvs hvisit
  rw [List.take_append_drop, List.length_take_of_le hi] at hvisit
  rw [call_eq_run]
  refine ⟨i + vs.length, at?_eq_some.2 ⟨?_, ?_⟩, hvisit⟩
  · have := congrArg List.length hvs
    rw [List.length_append, List.length_drop] at this
    omega
  · have hrest : (ofTokens ts).ahead.drop (i + vs.length) =
        (k.read (ofTokens ts).stop ((ofTokens ts).ahead.drop i)).rest := by
      rw [← List.drop_drop]
      nth_rewrite 1 [← hvs]
      exact List.drop_left
    exact congrArg (fun us => { ofTokens ts with ahead := us }) hrest

theorem exists_callsAt? (hc : at? ts i = some c) (ks : List Call) : ∃ j, at? ts j = some (c.after ks) ∧ ∀ behind,
    callsAt? ((ofTokens ts).ahead ++ (ofTokens ts).stop :: behind) ks i = some j := by
  induction ks generalizing i c with
  | nil => exact ⟨i, hc, fun _ => rfl⟩
  | cons k ks ih =>
      obtain ⟨j, hj, hcall⟩ := exists_callAt? hc k
      obtain ⟨l, hl, hcalls⟩ := ih hj
      refine ⟨l, hl, fun behind => ?_⟩
      rw [callsAt?, List.foldlM_cons, hcall behind]
      exact hcalls behind

theorem at?_zero (ts : List Token) : at? ts 0 = some (ofTokens ts) := at?_eq_some.2 ⟨Nat.zero_le _, rfl⟩

theorem safe_of_callAt? {k : Call} {r : Except ParseError k.Value} {j : Nat} {d : Cursor}
    (hj : at? ts j = some d) (h : callAt? (closed ts) k i = some (r, j)) : k.Safe (closed ts) i j r := by
  obtain ⟨-, behind, hclosed⟩ := closed_eq_ahead_append ts
  obtain ⟨hlength, -⟩ := at?_eq_some.1 hj
  obtain ⟨hforward, hblamed, hadvance⟩ := Reader.visited h
  rw [k.least_start] at hadvance
  refine ⟨hforward, ?_, ?_, hblamed, hadvance⟩
  · rw [hclosed, List.length_append, List.length_cons]
    omega
  · rw [hclosed, List.take_append_of_le_length hlength]
    exact fun t ht => ne_eof_of_mem_ahead ts t (List.mem_of_mem_take ht)

/-- Whatever has been called before on any list of tokens: a call reads inside
of the list only and in front of its first end token, and what stands behind
this one changes nothing. -/
theorem call_safe (ts : List Token) (ks : List Call) (k : Call) :
    let c := (ofTokens ts).after ks
    ∃ i j, at? ts i = some c ∧ at? ts j = some (c.call k).2 ∧
      callsAt? (closed ts) ks 0 = some i ∧ callAt? (closed ts) k i = some ((c.call k).1, j) ∧
      k.Safe (closed ts) i j (c.call k).1 ∧
      ∀ front stop behind, ts = front ++ stop :: behind → (∀ t ∈ front, t.kind ≠ .eof) → stop.kind = .eof →
        ∀ behind', callsAt? (closed (front ++ stop :: behind')) ks 0 = some i ∧
          callAt? (closed (front ++ stop :: behind')) k i = some ((c.call k).1, j) ∧
          (((ofTokens (front ++ stop :: behind')).after ks).call k).1 = (c.call k).1 := by
  intro c
  obtain ⟨i, hi, hcalls⟩ := exists_callsAt? (at?_zero ts) ks
  obtain ⟨j, hj, hcall⟩ := exists_callAt? hi k
  obtain ⟨-, behind, hclosed⟩ := closed_eq_ahead_append ts
  have hcall' : callAt? (closed ts) k i = some ((c.call k).1, j) := hclosed ▸ hcall behind
  refine ⟨i, j, hi, hj, hclosed ▸ hcalls behind, hcall', safe_of_callAt? hj hcall', ?_⟩
  rintro front stop behind rfl hfront hstop behind'
  obtain ⟨hahead, hend⟩ := ofTokens_of_eof hfront hstop behind
  obtain ⟨hahead', hend'⟩ := ofTokens_of_eof hfront hstop behind'
  obtain ⟨-, rest, hclosed'⟩ := closed_eq_ahead_append (front ++ stop :: behind')
  obtain ⟨i', hi', hcalls'⟩ := exists_callsAt? (at?_zero (front ++ stop :: behind')) ks
  obtain ⟨j', -, hcall''⟩ := exists_callAt? hi' k
  simp only [hahead, hend] at hcalls hcall
  simp only [hahead', hend'] at hcalls' hcall'' hclosed'
  obtain rfl : i = i' := Option.some.inj ((hcalls rest).symm.trans (hcalls' rest))
  obtain ⟨hsame, rfl⟩ := Prod.mk.inj (Option.some.inj ((hcall rest).symm.trans (hcall'' rest)))
  exact ⟨hclosed' ▸ hcalls rest, hclosed' ▸ hcall rest, hsame.symm⟩

theorem call_safe_of_early_end :
    let front : List Token := [.identifier ['r'], .identifier ['a'], .mark (.operator (.joining .alternation))].map
      Kind.token
    let ts (behind : List Token) := front ++ Kind.eof.token :: behind
    let k : Call := .expression 1
    let e : ParseError := .unexpected default .eof Expected.starts
    let behind := [(Kind.identifier ['b']).token]
    (((ofTokens (ts behind)).after [.rule]).call k).1 = .error e ∧
      (∃ j t, callAt? (closed (ts behind)) k 1 = some (.error e, j) ∧ 1 ≤ j ∧
        (closed (ts behind))[j]? = some t ∧ e.Blames t) ∧
      ∀ behind', (((ofTokens (ts behind')).after [.rule]).call k).1 = .error e := by
  intro front ts k e behind
  have hresult : (((ofTokens (ts behind)).after [.rule]).call k).1 = .error e := by rfl
  have hfirst : callsAt? (closed (ts behind)) [.rule] 0 = some 1 := by decide +kernel
  obtain ⟨i, j, -, -, hcalls, hcall, hsafe, hbehind⟩ := call_safe (ts behind) [.rule] k
  obtain rfl : i = 1 := Option.some.inj (hcalls.symm.trans hfirst)
  rw [hresult] at hcall hsafe
  obtain ⟨t, ht, hblames⟩ := hsafe.blamed e _ rfl rfl
  refine ⟨hresult, ⟨j, t, hcall, hsafe.forward, ht, hblames⟩, fun behind' => ?_⟩
  exact (hbehind front _ behind rfl (by decide) rfl behind').2.2.trans hresult

end Cursor

end Ebnf
