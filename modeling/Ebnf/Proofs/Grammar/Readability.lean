import Ebnf.Proofs.Grammar.Leaves
import Ebnf.Proofs.Grammar.Shape
import Ebnf.Proofs.Lexeme.Neighbours

namespace Ebnf

open Lexeme

variable {α β : Type}

inductive Root
  | atom
  | integer
  | operator (o : Operator)
  | bracket (b : Bracket)
deriving DecidableEq, Repr

namespace Shape

def render : Shape → Text
  | .atom a => a.spelling
  | .integer n => Decimal.digits n
  | .binary o l r => '(' :: o.symbol :: ' ' :: l.render ++ ' ' :: r.render ++ [')']
  | .without o l => '(' :: o.symbol :: ' ' :: l.render ++ [')']
  | .group b e => b.opener :: e.render ++ [b.closer]
  | .empty b => [b.opener, b.closer]

def Legal : Shape → Prop
  | .atom a => a.lexeme.Proper
  | .integer _ | .empty _ => True
  | .binary _ l r => l.Legal ∧ r.Legal
  | .without _ l => l.Legal
  | .group _ e => e.Legal

def root : Shape → Root
  | .atom _ => .atom
  | .integer _ => .integer
  | .binary o _ _ | .without o _ => .operator o
  | .group b _ | .empty b => .bracket b

end Shape

/-- The root of a tree, as the first two characters of its text tell it. A
parenthesis belongs to an operator if one stands right behind it. -/
def Text.root : Text → Root
  | [] => .atom
  | c :: t =>
      if c.isDigit then .integer
      else match Bracket.all.find? (·.opener = c), t.head?.bind fun d => Operator.all.find? (·.symbol = d) with
        | some .grouped, some o => .operator o
        | some b, _ => .bracket b
        | none, _ => .atom

def beginsTree (c : Char) : Bool := isNamePart c || ['\'', '"', '?', '[', '{', '('].contains c

theorem beginsTree_symbol (o : Operator) : beginsTree o.symbol = false := by
  cases o with
  | joining c => cases c <;> rfl
  | counting => rfl

theorem beginsTree_closer (b : Bracket) : beginsTree b.closer = false := by
  cases b <;> rfl

theorem Decimal.digits_cons (n : Nat) : ∃ c t, digits n = c :: t ∧ ∀ d ∈ c :: t, d.isDigit = true := by
  obtain ⟨c, t, h⟩ := List.exists_cons_of_ne_nil (Nat.toDigits_ne_nil (b := 10) (n := n))
  exact ⟨c, t, h, fun d hd => Nat.isDigit_of_mem_toDigits (by decide) (by decide) (h ▸ hd)⟩

theorem Atom.spelling_lexeme (a : Atom) : a.lexeme.spelling = a.spelling := by
  cases a <;> rfl

namespace Shape

theorem render_begins {s : Shape} (h : s.Legal) : ∃ c t, s.render = c :: t ∧ beginsTree c = true := by
  cases s with
  | atom a =>
      cases a with
      | identifier name =>
          obtain ⟨c, t, rfl, hc, -⟩ := h
          exact ⟨c, t, rfl, by simp [beginsTree, isNamePart_of_isAlpha hc]⟩
      | terminal text q => cases q <;> exact ⟨_, _, rfl, rfl⟩
      | special text => exact ⟨_, _, rfl, rfl⟩
  | integer n =>
      obtain ⟨c, t, hn, hd⟩ := Decimal.digits_cons n
      exact ⟨c, t, hn, by simp [beginsTree, isNamePart_of_isDigit (hd c List.mem_cons_self)]⟩
  | binary | without => exact ⟨_, _, rfl, rfl⟩
  | group b e => cases b <;> exact ⟨_, _, rfl, rfl⟩
  | empty b => cases b <;> exact ⟨_, _, rfl, rfl⟩

theorem root_atom {a : Atom} (h : a.lexeme.Proper) (u : Text) : Text.root (a.spelling ++ u) = .atom := by
  obtain ⟨c, t, hc⟩ := List.exists_cons_of_ne_nil h.spelling_ne_nil
  have hb := h.begins hc
  have hd : c.isDigit = false := by
    apply Bool.eq_false_iff.2
    intro hd
    obtain ⟨digits, ha⟩ := hb.isDigit.1 hd
    cases a <;> cases ha
  have hf : Bracket.all.find? (·.opener = c) = none := by
    cases a with
    | identifier name =>
        have hn : isNamePart c = true := isNamePart_of_isAlpha hb
        rw [List.find?_eq_none]
        rintro b - hbc
        obtain rfl : b.opener = c := by simpa using hbc
        cases b <;> cases hn
    | terminal text q => obtain rfl := hb; cases q <;> rfl
    | special text => obtain rfl := hb; rfl
  rw [← a.spelling_lexeme, hc, List.cons_append, Text.root, if_neg (by simp [hd]), hf]

theorem root_bracket (b : Bracket) {d : Char} (hd : ∀ o : Operator, o.symbol ≠ d) (t : Text) :
    Text.root (b.opener :: d :: t) = .bracket b := by
  have hf : Operator.all.find? (·.symbol = d) = none := by simpa using fun o _ => hd o
  cases b <;> simp [Text.root, Bracket.all, Bracket.opener, hf]

theorem root_render {s : Shape} (h : s.Legal) (u : Text) : Text.root (s.render ++ u) = s.root := by
  cases s with
  | atom a => exact root_atom h u
  | integer n =>
      obtain ⟨c, t, hn, hd⟩ := Decimal.digits_cons n
      rw [render, hn, List.cons_append, Text.root, if_pos (hd c List.mem_cons_self)]
      rfl
  | binary o | without o => cases o with
      | joining c => cases c <;> rfl
      | counting => rfl
  | group b e =>
      obtain ⟨c, t, he, hc⟩ := render_begins (s := e) h
      rw [render, he]
      apply root_bracket
      rintro o rfl
      rw [beginsTree_symbol] at hc
      cases hc
  | empty b =>
      apply root_bracket
      cases b <;> intro o <;> cases o with
        | joining c => cases c <;> decide
        | counting => decide

theorem root_eq_of_render_append {s s' : Shape} {u u' : Text} (hs : s.Legal) (hs' : s'.Legal)
    (h : s.render ++ u = s'.render ++ u') : s.root = s'.root := by
  rw [← root_render hs u, h, root_render hs' u']

theorem render_append_ne {s : Shape} (hs : s.Legal) {c : Char} (hc : beginsTree c = false) (u t : Text) :
    s.render ++ u ≠ c :: t := by
  obtain ⟨d, s', hd, hb⟩ := render_begins hs
  intro h
  rw [hd, List.cons_append] at h
  obtain ⟨rfl, -⟩ := List.cons.inj h
  rw [hc] at hb
  cases hb

theorem digits_append_inj {n n' : Nat} {u u' : Text} (hu : u.Apart) (hu' : u'.Apart)
    (h : Decimal.digits n ++ u = Decimal.digits n' ++ u') : n = n' ∧ u = u' := by
  have hcut (m : Nat) {v : Text} (hv : v.Apart) :
      (Decimal.digits m ++ v).takeWhile Char.isDigit = Decimal.digits m := by
    obtain ⟨c, t, hm, hd⟩ := Decimal.digits_cons m
    rw [hm]
    exact takeWhile_run hd fun d hd => isDigit_of_isNamePart (hv d hd).1
  have hd : Decimal.digits n = Decimal.digits n' := by rw [← hcut n hu, h, hcut n' hu']
  have hn : n = n' := by rw [← Decimal.value_digits n, hd, Decimal.value_digits]
  rw [hd] at h
  exact ⟨hn, List.append_cancel_left h⟩

theorem spelling_append_inj {a a' : Atom} {u u' : Text} (ha : a.lexeme.Proper) (ha' : a'.lexeme.Proper)
    (hu : u.Apart) (hu' : u'.Apart) (h : a.spelling ++ u = a'.spelling ++ u') : a = a' ∧ u = u' := by
  rw [← a.spelling_lexeme, ← a'.spelling_lexeme] at h
  obtain ⟨hl, huu⟩ := Lexeme.spelling_append_inj ha (stops_of_apart a.kind?_lexeme hu) ha'
    (stops_of_apart a'.kind?_lexeme hu') h
  refine ⟨?_, huu⟩
  cases a <;> cases a' <;> cases hl <;> rfl

theorem render_binary (o : Operator) (l r : Shape) (u : Text) : (binary o l r).render ++ u =
    ['(', o.symbol, ' '] ++ (l.render ++ ' ' :: (r.render ++ ')' :: u)) := by
  simp [render]

theorem render_without (o : Operator) (l : Shape) (u : Text) :
    (without o l).render ++ u = ['(', o.symbol, ' '] ++ (l.render ++ ')' :: u) := by
  simp [render]

theorem render_group (b : Bracket) (e : Shape) (u : Text) :
    (group b e).render ++ u = [b.opener] ++ (e.render ++ b.closer :: u) := by
  simp [render]

/-- A tree is told by its text, and so is where the text ends, as long as no
leaf goes on behind it. -/
theorem render_append_inj {s s' : Shape} {u u' : Text} (hs : s.Legal) (hs' : s'.Legal) (hu : u.Apart)
    (hu' : u'.Apart) (h : s.render ++ u = s'.render ++ u') : s = s' ∧ u = u' := by
  have hspace (v : Text) : Text.Apart (' ' :: v) := Text.apart_space v
  have hclose (v : Text) : Text.Apart (')' :: v) := Text.apart_closer .grouped v
  -- The roots agree, so what remains are the trees below and what tells two forms of one root apart.
  induction s generalizing s' u u' with
  | atom a =>
      have hroot := root_eq_of_render_append hs hs' h
      cases s' with
      | atom a' =>
          obtain ⟨rfl, rfl⟩ := spelling_append_inj hs hs' hu hu' h
          exact ⟨rfl, rfl⟩
      | _ => cases hroot
  | integer n =>
      have hroot := root_eq_of_render_append hs hs' h
      cases s' with
      | integer n' =>
          obtain ⟨rfl, rfl⟩ := digits_append_inj hu hu' h
          exact ⟨rfl, rfl⟩
      | _ => cases hroot
  | binary o l r ihl ihr =>
      have hroot := root_eq_of_render_append hs hs' h
      cases s' with
      | binary o' l' r' =>
          obtain rfl := Root.operator.inj hroot
          rw [render_binary, render_binary] at h
          obtain ⟨rfl, hr⟩ := ihl hs.1 hs'.1 (hspace _) (hspace _) (List.append_cancel_left h)
          obtain ⟨rfl, hend⟩ := ihr hs.2 hs'.2 (hclose _) (hclose _) (List.cons.inj hr).2
          exact ⟨rfl, (List.cons.inj hend).2⟩
      | without o' l' =>
          have hl' : l'.Legal := hs'
          obtain rfl := Root.operator.inj hroot
          rw [render_binary, render_without] at h
          obtain ⟨-, hr⟩ := ihl hs.1 hl' (hspace _) (hclose _) (List.append_cancel_left h)
          cases hr
      | _ => cases hroot
  | without o l ih =>
      have hl : l.Legal := hs
      have hroot := root_eq_of_render_append hs hs' h
      cases s' with
      | binary o' l' r' =>
          obtain rfl := Root.operator.inj hroot
          rw [render_without, render_binary] at h
          obtain ⟨-, hr⟩ := ih hl hs'.1 (hclose _) (hspace _) (List.append_cancel_left h)
          cases hr
      | without o' l' =>
          have hl' : l'.Legal := hs'
          obtain rfl := Root.operator.inj hroot
          rw [render_without, render_without] at h
          obtain ⟨rfl, hend⟩ := ih hl hl' (hclose _) (hclose _) (List.append_cancel_left h)
          exact ⟨rfl, (List.cons.inj hend).2⟩
      | _ => cases hroot
  | group b e ih =>
      have he : e.Legal := hs
      have hroot := root_eq_of_render_append hs hs' h
      cases s' with
      | group b' e' =>
          have he' : e'.Legal := hs'
          obtain rfl := Root.bracket.inj hroot
          rw [render_group, render_group] at h
          obtain ⟨rfl, hend⟩ := ih he he' (Text.apart_closer b _) (Text.apart_closer b _) (List.append_cancel_left h)
          exact ⟨rfl, (List.cons.inj hend).2⟩
      | empty b' =>
          obtain rfl := Root.bracket.inj hroot
          rw [render_group] at h
          exact absurd (List.cons.inj h).2 (render_append_ne he (beginsTree_closer b) _ _)
      | _ => cases hroot
  | empty b =>
      have hroot := root_eq_of_render_append hs hs' h
      cases s' with
      | group b' e' =>
          have he' : e'.Legal := hs'
          obtain rfl := Root.bracket.inj hroot
          rw [render_group] at h
          exact absurd (List.cons.inj h).2.symm (render_append_ne he' (beginsTree_closer b) _ _)
      | empty b' =>
          obtain rfl := Root.bracket.inj hroot
          exact ⟨rfl, List.append_cancel_left h⟩
      | _ => cases hroot

end Shape

namespace RuleShape

def render (r : RuleShape) : Text := r.name ++ " = ".toList ++ r.body.elim [] Shape.render ++ [';']

def Legal (r : RuleShape) : Prop := (Lexeme.identifier r.name).Proper ∧ ∀ s ∈ r.body, s.Legal

theorem render_ne_nil (r : RuleShape) : r.render ≠ [] := by
  simp [render]

/-- The body ends at the first semicolon that no leaf holds. -/
theorem body_append_inj {body body' : Option Shape} {u u' : Text} (hb : ∀ s ∈ body, s.Legal)
    (hb' : ∀ s ∈ body', s.Legal)
    (h : body.elim [] Shape.render ++ ';' :: u = body'.elim [] Shape.render ++ ';' :: u') :
    body = body' ∧ u = u' := by
  have hend (v : Text) : Text.Apart (';' :: v) := by
    rintro c ⟨⟩
    decide
  cases body with
  | none => cases body' with
      | none => exact ⟨rfl, (List.cons.inj h).2⟩
      | some s' => exact absurd h.symm (Shape.render_append_ne (hb' s' rfl) rfl _ _)
  | some s => cases body' with
      | none => exact absurd h (Shape.render_append_ne (hb s rfl) rfl _ _)
      | some s' =>
          obtain ⟨rfl, hu⟩ := Shape.render_append_inj (hb s rfl) (hb' s' rfl) (hend u) (hend u') h
          exact ⟨rfl, (List.cons.inj hu).2⟩

theorem render_append_inj {r r' : RuleShape} {u u' : Text} (hr : r.Legal) (hr' : r'.Legal)
    (h : r.render ++ u = r'.render ++ u') : r = r' ∧ u = u' := by
  obtain ⟨name, body⟩ := r
  obtain ⟨name', body'⟩ := r'
  have hstop (n v : Text) : (Lexeme.identifier n).Stops (' ' :: v) := by
    rintro c ⟨⟩
    rfl
  have hequals : " = ".toList = [' ', '=', ' '] := rfl
  simp only [render, hequals, List.append_assoc, List.cons_append, List.nil_append] at h
  obtain ⟨hn, hbody⟩ := Lexeme.spelling_append_inj hr.1 (hstop _ _) hr'.1 (hstop _ _) h
  obtain rfl := Lexeme.identifier.inj hn
  simp only [List.cons.injEq, true_and] at hbody
  obtain ⟨rfl, hu⟩ := body_append_inj hr.2 hr'.2 hbody
  exact ⟨rfl, hu⟩

theorem renders_inj {rs rs' : List RuleShape} (hr : ∀ r ∈ rs, r.Legal) (hr' : ∀ r ∈ rs', r.Legal)
    (h : (rs.flatMap fun r => '\n' :: r.render) = rs'.flatMap fun r => '\n' :: r.render) : rs = rs' := by
  induction rs generalizing rs' with
  | nil => cases rs' with
      | nil => rfl
      | cons r' rs' => cases h
  | cons r rs ih => cases rs' with
      | nil => cases h
      | cons r' rs' =>
          obtain ⟨hfirst, hmore⟩ := List.forall_mem_cons.1 hr
          obtain ⟨hfirst', hmore'⟩ := List.forall_mem_cons.1 hr'
          rw [List.flatMap_cons, List.flatMap_cons] at h
          obtain ⟨rfl, hrest⟩ := render_append_inj hfirst hfirst' (List.cons.inj h).2
          rw [ih hmore hmore' hrest]

end RuleShape

def renderShapes (rs : List RuleShape) : Text := ['\n'].intercalate (rs.map RuleShape.render)

theorem renderShapes_cons (r : RuleShape) (rs : List RuleShape) :
    renderShapes (r :: rs) = r.render ++ rs.flatMap fun r => '\n' :: r.render := by
  induction rs generalizing r with
  | nil => simp [renderShapes, List.intercalate]
  | cons r' rs ih =>
      have h := ih r'
      simp only [renderShapes, List.intercalate, List.map_cons, List.intersperse_cons_cons, List.flatten_cons,
        List.flatMap_cons] at h ⊢
      rw [h]
      rfl

theorem renderShapes_inj {rs rs' : List RuleShape} (hr : ∀ r ∈ rs, r.Legal) (hr' : ∀ r ∈ rs', r.Legal)
    (h : renderShapes rs = renderShapes rs') : rs = rs' := by
  have hnil (r : RuleShape) (rs : List RuleShape) : renderShapes (r :: rs) ≠ [] := by
    rw [renderShapes_cons]
    simp [r.render_ne_nil]
  cases rs with
  | nil => cases rs' with
      | nil => rfl
      | cons r' rs' => exact absurd h.symm (hnil r' rs')
  | cons r rs => cases rs' with
      | nil => exact absurd h (hnil r rs)
      | cons r' rs' =>
          obtain ⟨hfirst, hmore⟩ := List.forall_mem_cons.1 hr
          obtain ⟨hfirst', hmore'⟩ := List.forall_mem_cons.1 hr'
          rw [renderShapes_cons, renderShapes_cons] at h
          obtain ⟨rfl, hrest⟩ := RuleShape.render_append_inj hfirst hfirst' h
          rw [RuleShape.renders_inj hmore hmore' hrest]

theorem Expr.legal_shape {e : Expr α} (h : ∀ k ∈ e.yield, k.Legal) : e.shape.Legal := by
  induction e with
  | atom a p => exact Atom.proper_lexeme (h a.kind (by simp [yield]))
  | binary c l r p ihl ihr =>
      exact ⟨ihl fun k hk => h k (by simp [yield, hk]), ihr fun k hk => h k (by simp [yield, hk])⟩
  | without l p ih => exact ih fun k hk => h k (by simp [yield, hk])
  | counted n q e p ih => exact ⟨trivial, ih fun k hk => h k (by simp [yield, hk])⟩
  | group b e p ih => exact ih fun k hk => h k (by simp [yield, hk])
  | empty => trivial

theorem Rule.legal_shape {r : Rule α} (h : ∀ k ∈ r.yield, k.Legal) : r.shape.Legal := by
  constructor
  · obtain ⟨l, hp, hk⟩ := h (.identifier r.name) (by simp [yield])
    cases l <;> cases hk
    exact hp
  · intro s hs
    obtain ⟨e, he, rfl⟩ := Option.map_eq_some_iff.1 hs
    exact Expr.legal_shape fun k hk => h k (by simp [yield, bodyYield, he, hk])

theorem Expr.render_shape (e : Expr α) : e.shape.render = e.render := by
  induction e <;> simp_all [shape, render, Shape.render]

theorem Rule.render_shape (r : Rule α) : r.shape.render = r.render := by
  cases h : r.body <;> simp [shape, RuleShape.render, render, Expr.render_shape, h]

theorem Grammar.render_shape (g : Grammar α) : renderShapes g.shape = g.render := by
  simp [renderShapes, shape, render, Function.comp_def, Rule.render_shape]

theorem Expr.shape_injective : Function.Injective (shape : Expr Unit → Shape) := by
  intro e e' h
  induction e generalizing e' with
  | atom a p => cases e' <;> cases h; rfl
  | empty b p => cases e' <;> cases h; rfl
  | binary c l r p ihl ihr => cases e' with
      | binary c' l' r' p' =>
          simp only [shape, Shape.binary.injEq, Operator.joining.injEq] at h
          obtain ⟨rfl, hl, hr⟩ := h
          rw [ihl hl, ihr hr]
      | _ => cases h
  | without l p ih => cases e' with
      | without l' p' => rw [ih (Shape.without.inj h).2]
      | _ => cases h
  | counted n q e p ih => cases e' with
      | counted n' q' e' p' =>
          simp only [shape, Shape.binary.injEq, Shape.integer.injEq, true_and] at h
          obtain ⟨rfl, he⟩ := h
          rw [ih he]
      | _ => cases h
  | group b e p ih => cases e' with
      | group b' e' p' =>
          obtain ⟨rfl, he⟩ := Shape.group.inj h
          rw [ih he]
      | _ => cases h

theorem Rule.shape_injective : Function.Injective (shape : Rule Unit → RuleShape) := by
  intro r r' h
  obtain ⟨name, _, body, _⟩ := r
  obtain ⟨name', _, body', _⟩ := r'
  obtain ⟨rfl, hb⟩ := RuleShape.mk.inj h
  obtain rfl : body = body' := Option.map_injective Expr.shape_injective hb
  rfl

theorem Grammar.bare_eq_iff_shape_eq {g : Grammar α} {g' : Grammar β} : g.bare = g'.bare ↔ g.shape = g'.shape := by
  have hshape {γ : Type} (g : Grammar γ) : g.bare.rules.map Rule.shape = g.shape := by
    simp [shape, bare_rules, Function.comp_def, Rule.shape_bare]
  rw [← hshape g, ← hshape g']
  constructor
  · intro h
    rw [h]
  · intro h
    exact congrArg (Grammar.mk · ()) (List.map_injective_iff.2 Rule.shape_injective h)

end Ebnf
