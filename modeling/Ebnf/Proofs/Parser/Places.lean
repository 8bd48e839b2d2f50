import Ebnf.Parser.Phase
import Ebnf.Proofs.Grammar.Binding
import Mathlib.Data.List.Forall2

namespace Ebnf

variable {α : Type}

namespace Expr

def nodes (e : Expr α) : List (Expr α) :=
  e :: match e with
    | .atom _ _ | .empty _ _ => []
    | .binary _ l r _ => l.nodes ++ r.nodes
    | .without l _ => l.nodes
    | .counted _ _ e _ | .group _ e _ => e.nodes

/-- The places of what stands right under the root, a count included. -/
def parts : Expr α → List α
  | .atom _ _ | .empty _ _ => []
  | .binary _ l r _ => [l.place, r.place]
  | .without l _ => [l.place]
  | .counted _ q e _ => [q, e.place]
  | .group _ e _ => [e.place]

theorem WellBound.of_mem_nodes {e x : Expr α} (h : e.WellBound) (hx : x ∈ e.nodes) : x.WellBound := by
  induction e with
  | atom | empty =>
      obtain rfl := List.mem_singleton.1 hx
      exact h
  | binary c l r p ihl ihr =>
      rcases List.mem_cons.1 hx with rfl | hx
      · exact h
      · rcases List.mem_append.1 hx with hx | hx
        · exact ihl h.2.2.1 hx
        · exact ihr h.2.2.2 hx
  | without l p ih | counted n q l p ih =>
      rcases List.mem_cons.1 hx with rfl | hx
      · exact h
      · exact ih h.2 hx
  | group b e p ih =>
      rcases List.mem_cons.1 hx with rfl | hx
      · exact h
      · exact ih h hx

end Expr

def Rule.nodes (r : Rule α) : List (Expr α) := r.body.elim [] Expr.nodes

def Rule.parts (r : Rule α) : List α := r.namePlace :: r.body.elim [] fun e => [e.place]

/-- The expression stands on these tokens, and every node has its place from
the places of its parts. -/
inductive Expr.Stands : Expr Span → List Token → Prop
  | atom {a : Atom} {t : Token} (ht : t.kind = a.kind) : Stands (.atom a t.span) [t]
  | binary {c : Connective} {l r : Expr Span} {us vs : List Token} {t : Token} (hl : Stands l us)
      (ht : t.kind = .mark (.operator (.joining c))) (hr : Stands r vs) : Stands (l.join c r) (us ++ t :: vs)
  | without {l : Expr Span} {us : List Token} {t : Token} (hl : Stands l us)
      (ht : t.kind = .mark (.operator (.joining .exception))) : Stands (l.exceptNothing t.span) (us ++ [t])
  | counted {n : Nat} {e : Expr Span} {us : List Token} {t u : Token} (ht : t.kind = .integer n)
      (hu : u.kind = .mark (.operator .counting)) (he : Stands e us) :
      Stands (.counted n t.span e (t.span.hull e.place)) (t :: u :: us)
  | group {b : Bracket} {e : Expr Span} {us : List Token} {t u : Token} (ht : t.kind = .mark (.opening b))
      (he : Stands e us) (hu : u.kind = .mark (.closing b)) :
      Stands (.group b e (t.span.hull u.span)) (t :: (us ++ [u]))
  | empty {b : Bracket} {t u : Token} (ht : t.kind = .mark (.opening b)) (hu : u.kind = .mark (.closing b)) :
      Stands (.empty b (t.span.hull u.span)) [t, u]

inductive BodyStands : Option (Expr Span) → List Token → Prop
  | none : BodyStands none []
  | some {e : Expr Span} {us : List Token} (he : e.Stands us) : BodyStands (some e) us

inductive Rule.Stands : Rule Span → List Token → Prop
  | mk {name : Text} {body : Option (Expr Span)} {us : List Token} {t u v : Token}
      (ht : t.kind = .identifier name) (hu : u.kind = .mark .equals) (hb : BodyStands body us)
      (hv : v.kind = .mark .semicolon) : Stands (Head.rule ⟨name, t.span⟩ body v.span) (t :: u :: (us ++ [v]))

def Token.extent (ts : List Token) : Span :=
  match ts.head?, ts.getLast? with
  | some a, some b => a.span.hull b.span
  | _, _ => default

theorem Token.extent_cons_append (t u : Token) (ts : List Token) :
    extent (t :: (ts ++ [u])) = t.span.hull u.span := by
  simp [extent, List.getLast?_cons]

theorem Rule.Stands.place_eq {r : Rule Span} {ts : List Token} (h : r.Stands ts) : r.place = Token.extent ts := by
  cases h with
  | @mk name body us t u v _ _ _ _ => exact (Token.extent_cons_append t v (u :: us)).symm

theorem Expr.Stands.kinds {e : Expr Span} {ts : List Token} (h : e.Stands ts) : ts.map (·.kind) = e.yield := by
  induction h with
  | atom ht => simp [yield, ht]
  | binary _ ht _ ihl ihr => simp [join, yield, ht, ihl, ihr]
  | without _ ht ih => simp [exceptNothing, yield, ht, ih]
  | counted ht hu _ ih => simp [yield, ht, hu, ih]
  | group ht _ hu ih => simp [yield, ht, hu, ih]
  | empty ht hu => simp [yield, ht, hu]

theorem BodyStands.kinds {body : Option (Expr Span)} {ts : List Token} (h : BodyStands body ts) :
    ts.map (·.kind) = bodyYield body := by
  cases h with
  | none => rfl
  | some he => exact he.kinds

theorem Rule.Stands.kinds {r : Rule Span} {ts : List Token} (h : r.Stands ts) : ts.map (·.kind) = r.yield := by
  cases h with
  | mk ht hu hb hv => simp [Head.rule, yield, ht, hu, hv, hb.kinds]

theorem Expr.Stands.exists_node {e x : Expr Span} {ts : List Token} (h : e.Stands ts) (hx : x ∈ e.nodes) :
    ∃ us, us <:+: ts ∧ x.Stands us := by
  induction h with
  | atom ht =>
      obtain rfl := List.mem_singleton.1 hx
      exact ⟨_, List.infix_rfl, .atom ht⟩
  | empty ht hu =>
      obtain rfl := List.mem_singleton.1 hx
      exact ⟨_, List.infix_rfl, .empty ht hu⟩
  | @binary c l r us vs t hl ht hr ihl ihr =>
      rcases List.mem_cons.1 hx with rfl | hx
      · exact ⟨_, List.infix_rfl, .binary hl ht hr⟩
      · rcases List.mem_append.1 hx with hx | hx
        · obtain ⟨ws, hws, hs⟩ := ihl hx
          exact ⟨ws, hws.trans (List.prefix_append us _).isInfix, hs⟩
        · obtain ⟨ws, hws, hs⟩ := ihr hx
          exact ⟨ws, hws.trans ⟨us ++ [t], [], by simp⟩, hs⟩
  | @without l us t hl ht ih =>
      rcases List.mem_cons.1 hx with rfl | hx
      · exact ⟨_, List.infix_rfl, .without hl ht⟩
      · obtain ⟨ws, hws, hs⟩ := ih hx
        exact ⟨ws, hws.trans (List.prefix_append us _).isInfix, hs⟩
  | @counted n e us t u ht hu he ih =>
      rcases List.mem_cons.1 hx with rfl | hx
      · exact ⟨_, List.infix_rfl, .counted ht hu he⟩
      · obtain ⟨ws, hws, hs⟩ := ih hx
        exact ⟨ws, hws.trans (List.suffix_append [t, u] us).isInfix, hs⟩
  | @group b e us t u ht he hu ih =>
      rcases List.mem_cons.1 hx with rfl | hx
      · exact ⟨_, List.infix_rfl, .group ht he hu⟩
      · obtain ⟨ws, hws, hs⟩ := ih hx
        exact ⟨ws, hws.trans ⟨[t], [u], rfl⟩, hs⟩

theorem Rule.Stands.exists_node {r : Rule Span} {x : Expr Span} {ts : List Token} (h : r.Stands ts)
    (hx : x ∈ r.nodes) : ∃ us, us <:+: ts ∧ x.Stands us := by
  cases h with
  | @mk name body us t u v ht hu hb hv =>
      cases hb with
      | none => cases hx
      | some he =>
          obtain ⟨ws, hws, hs⟩ := he.exists_node hx
          exact ⟨ws, hws.trans ⟨[t, u], [v], rfl⟩, hs⟩

/-- Tokens that are not empty and stand one behind the other. -/
structure Token.Ordered (ts : List Token) : Prop where
  nonempty : ∀ t ∈ ts, t.span.start < t.span.stop
  pairwise : ts.Pairwise fun t u => t.span.stop ≤ u.span.start

structure Span.RunsOver (a : Span) (ts : List Token) : Prop where
  first : ∃ t ∈ ts.head?, t.span.start = a.start
  last : ∃ t ∈ ts.getLast?, t.span.stop = a.stop

/-- Spans inside a span that are not empty and stand one behind the other. -/
structure Span.Nests (b : Span) (as : List Span) : Prop where
  nonempty : ∀ a ∈ as, a.start < a.stop
  inside : ∀ a ∈ as, b.start ≤ a.start ∧ a.stop ≤ b.stop
  apart : as.Pairwise fun a a' => a.stop ≤ a'.start

namespace Span.RunsOver

variable {a b : Span} {t : Token} {ts us vs : List Token}

theorem single (t : Token) : t.span.RunsOver [t] := ⟨⟨t, rfl, rfl⟩, ⟨t, rfl, rfl⟩⟩

theorem append (ha : a.RunsOver us) (ws : List Token) (hb : b.RunsOver vs) :
    RunsOver ⟨a.start, b.stop⟩ (us ++ (ws ++ vs)) := by
  obtain ⟨t, ht, hts⟩ := ha.first
  obtain ⟨u, hu, hus⟩ := hb.last
  rw [Option.mem_def] at ht hu
  exact ⟨⟨t, by simp [ht], hts⟩, ⟨u, by simp [hu], hus⟩⟩

theorem exists_first (h : a.RunsOver ts) : ∃ t ∈ ts, t.span.start = a.start := by
  obtain ⟨t, ht, hts⟩ := h.first
  exact ⟨t, List.mem_of_mem_head? ht, hts⟩

theorem exists_last (h : a.RunsOver ts) : ∃ t ∈ ts, t.span.stop = a.stop := by
  obtain ⟨t, ht, hts⟩ := h.last
  exact ⟨t, List.mem_of_getLast? ht, hts⟩

theorem covers (h : a.RunsOver ts) (ho : Token.Ordered ts) :
    ∀ t ∈ ts, a.start ≤ t.span.start ∧ t.span.stop ≤ a.stop := by
  intro t ht
  have hnonempty := ho.nonempty t ht
  constructor
  · obtain ⟨u, hu, hus⟩ := h.first
    cases ts with
    | nil => cases ht
    | cons v vs =>
        obtain rfl := Option.some.inj hu
        rcases List.mem_cons.1 ht with rfl | ht
        · exact Nat.le_of_eq hus.symm
        · have hv := ho.nonempty v List.mem_cons_self
          have hle := (List.pairwise_cons.1 ho.pairwise).1 t ht
          omega
  · obtain ⟨u, hu, hus⟩ := h.last
    rcases ts.eq_nil_or_concat with rfl | ⟨vs, v, rfl⟩
    · cases ht
    · rw [List.concat_eq_append] at hu ht ho
      obtain rfl := Option.some.inj (List.getLast?_concat.symm.trans hu)
      rcases List.mem_append.1 ht with ht | ht
      · have hv := ho.nonempty v (List.mem_append_right vs List.mem_cons_self)
        have hle := (List.pairwise_append.1 ho.pairwise).2.2 t ht v List.mem_cons_self
        omega
      · obtain rfl := List.mem_singleton.1 ht
        exact Nat.le_of_eq hus

theorem start_lt_stop (h : a.RunsOver ts) (ho : Token.Ordered ts) : a.start < a.stop := by
  obtain ⟨t, ht, hts⟩ := h.exists_first
  have hnonempty := ho.nonempty t ht
  have hle := (h.covers ho t ht).2
  omega

end Span.RunsOver

theorem exists_mem_of_forall₂ {α β : Type} {R : α → β → Prop} {xs : List α} {ys : List β}
    (h : List.Forall₂ R xs ys) {x : α} (hx : x ∈ xs) : ∃ y ∈ ys, R x y := by
  induction h with
  | nil => cases hx
  | cons hr _ ih =>
      rcases List.mem_cons.1 hx with rfl | hx
      · exact ⟨_, List.mem_cons_self, hr⟩
      · obtain ⟨y, hy, hr⟩ := ih hx
        exact ⟨y, List.mem_cons_of_mem _ hy, hr⟩

namespace Token.Ordered

variable {t : Token} {ts us vs : List Token} {b : Span}

theorem sublist (h : Ordered ts) (hs : us.Sublist ts) : Ordered us :=
  ⟨fun t ht => h.nonempty t (hs.subset ht), h.pairwise.sublist hs⟩

theorem hull_eq (h : Ordered (t :: ts)) (hs : us ⊆ ts) (hb : b.RunsOver us) :
    t.span.hull b = ⟨t.span.start, b.stop⟩ := by
  obtain ⟨u, hu, hus⟩ := hb.exists_first
  obtain ⟨v, hv, hvs⟩ := hb.exists_last
  have hbehind := (List.pairwise_cons.1 h.pairwise).1
  have ht := h.nonempty t List.mem_cons_self
  have hv' := h.nonempty v (List.mem_cons_of_mem t (hs hv))
  have hfirst := hbehind u (hs hu)
  have hlast := hbehind v (hs hv)
  rw [Span.hull, Nat.min_eq_left (by omega), Nat.max_eq_right (by omega)]

/-- Runs over tokens one behind the other are nested in a run over all of
them. -/
theorem nests {as : List Span} {segs : List (List Token)} (ho : Ordered ts) (hb : b.RunsOver ts)
    (has : List.Forall₂ Span.RunsOver as segs) (hs : segs.flatten.Sublist ts) : b.Nests as := by
  induction has with
  | nil => exact ⟨by simp, by simp, .nil⟩
  | @cons a us as segs ha hseg ih =>
      rw [List.flatten_cons] at hs
      have hrest := ih ((List.sublist_append_right us _).trans hs)
      have hus : us.Sublist ts := (List.sublist_append_left us _).trans hs
      obtain ⟨t, ht, hts⟩ := ha.exists_first
      obtain ⟨u, hu, hus'⟩ := ha.exists_last
      have hfirst := (hb.covers ho t (hus.subset ht)).1
      have hlast := (hb.covers ho u (hus.subset hu)).2
      refine ⟨?_, ?_, List.pairwise_cons.2 ⟨?_, hrest.apart⟩⟩
      · exact List.forall_mem_cons.2 ⟨ha.start_lt_stop (ho.sublist hus), hrest.nonempty⟩
      · exact List.forall_mem_cons.2 ⟨⟨by omega, by omega⟩, hrest.inside⟩
      · intro a' ha'
        obtain ⟨vs, hvs, ha'⟩ := exists_mem_of_forall₂ hseg ha'
        obtain ⟨v, hv, hvs'⟩ := ha'.exists_first
        have hbehind := (List.pairwise_append.1 (ho.sublist hs).pairwise).2.2 u hu
        have hle := hbehind v (List.mem_flatten.2 ⟨vs, hvs, hv⟩)
        omega

theorem runsOver_flatten {a : Span} {as : List Span} {segs : List (List Token)}
    (h : List.Forall₂ Span.RunsOver (a :: as) segs) :
    Span.RunsOver ⟨a.start, ((a :: as).getLast (List.cons_ne_nil a as)).stop⟩ segs.flatten := by
  induction as generalizing a segs with
  | nil =>
      obtain ⟨us, vss, ha, hnil, rfl⟩ := List.forall₂_cons_left_iff.1 h
      cases hnil
      simpa using ha
  | cons b as ih =>
      obtain ⟨us, vss, ha, hrest, rfl⟩ := List.forall₂_cons_left_iff.1 h
      have hrun := ha.append [] (ih hrest)
      rw [List.getLast_cons (List.cons_ne_nil b as)]
      exact hrun

theorem hull_getLast {a : Span} {as : List Span} {segs : List (List Token)} (ho : Ordered segs.flatten)
    (h : List.Forall₂ Span.RunsOver (a :: as) segs) :
    (a.hull ((a :: as).getLast (List.cons_ne_nil a as))).RunsOver segs.flatten := by
  have hall := runsOver_flatten h
  have hnests := ho.nests hall h (List.Sublist.refl _)
  have hfirst := hnests.inside a List.mem_cons_self
  have hlast := hnests.inside _ (List.getLast_mem (List.cons_ne_nil a as))
  rw [Span.hull, Nat.min_eq_left hlast.1, Nat.max_eq_right hfirst.2]
  exact hall

end Token.Ordered

open Ebnf.Span Ebnf.Token

theorem Expr.Stands.runsOver {e : Expr Span} {ts : List Token} (h : e.Stands ts) (ho : Ordered ts) :
    e.place.RunsOver ts := by
  induction h with
  | @atom a t ht => exact .single t
  | @binary c l r us vs t _ _ _ ihl ihr =>
      have hl := ihl (ho.sublist (List.sublist_append_left us _))
      have hr := ihr (ho.sublist ((List.sublist_cons_self t vs).trans (List.sublist_append_right us _)))
      exact hl.append [t] hr
  | @without l us t _ _ ih =>
      have hl := ih (ho.sublist (List.sublist_append_left us [t]))
      exact hl.append [] (.single t)
  | @counted n e us t u _ _ _ ih =>
      have he := ih (ho.sublist (List.sublist_append_right [t, u] us))
      have hhull := ho.hull_eq (List.subset_cons_self u us) he
      rw [place, hhull]
      exact (RunsOver.single t).append [u] he
  | @group b e us t u _ _ _ _ =>
      have hhull := ho.hull_eq (List.subset_append_right us [u]) (.single u)
      rw [place, hhull]
      exact (RunsOver.single t).append us (.single u)
  | @empty b t u _ _ =>
      have hhull := ho.hull_eq (List.Subset.refl [u]) (.single u)
      rw [place, hhull]
      exact (RunsOver.single t).append [] (.single u)

theorem Rule.Stands.runsOver {r : Rule Span} {ts : List Token} (h : r.Stands ts) (ho : Ordered ts) :
    r.place.RunsOver ts := by
  cases h with
  | @mk name body us t u v _ _ _ _ =>
      have hlast : [v] ⊆ u :: (us ++ [v]) := by simp
      rw [Head.rule, ho.hull_eq hlast (.single v)]
      exact (RunsOver.single t).append (u :: us) (.single v)

theorem Expr.Stands.nests {e : Expr Span} {ts : List Token} (h : e.Stands ts) (ho : Ordered ts) :
    e.place.Nests e.parts := by
  have hplace := h.runsOver ho
  have hsub {us : List Token} (hs : us.Sublist ts) {e' : Expr Span} (he : e'.Stands us) : e'.place.RunsOver us :=
    he.runsOver (ho.sublist hs)
  cases h with
  | atom | empty => exact ⟨by simp [parts], by simp [parts], .nil⟩
  | @binary c l r us vs t hl _ hr =>
      have hus : us.Sublist (us ++ t :: vs) := List.sublist_append_left us _
      have hvs : vs.Sublist (us ++ t :: vs) := (List.sublist_cons_self t vs).trans (List.sublist_append_right us _)
      refine ho.nests hplace (.cons (hsub hus hl) (.cons (hsub hvs hr) .nil)) ?_
      simp
  | @without l us t hl _ =>
      have hus : us.Sublist (us ++ [t]) := List.sublist_append_left us _
      refine ho.nests hplace (.cons (hsub hus hl) .nil) ?_
      simp
  | @counted n e us t u _ _ he =>
      have hus : us.Sublist (t :: u :: us) := List.sublist_append_right [t, u] us
      refine ho.nests hplace (.cons (.single t) (.cons (hsub hus he) .nil)) ?_
      simp
  | @group b e us t u _ he _ =>
      have hus : us.Sublist (t :: (us ++ [u])) := (List.sublist_append_left us [u]).trans (List.sublist_cons_self t _)
      refine ho.nests hplace (.cons (hsub hus he) .nil) ?_
      simp

theorem Rule.Stands.nests {r : Rule Span} {ts : List Token} (h : r.Stands ts) (ho : Ordered ts) :
    r.place.Nests r.parts := by
  have hplace := h.runsOver ho
  cases h with
  | @mk name body us t u v _ _ hb _ =>
      cases hb with
      | none =>
          refine ho.nests hplace (.cons (.single t) .nil) ?_
          simp
      | @some e us he =>
          have hus : us.Sublist (u :: (us ++ [v])) :=
            (List.sublist_append_left us [v]).trans (List.sublist_cons_self u _)
          have hbody := he.runsOver (ho.sublist (hus.trans (List.sublist_cons_self t _)))
          refine ho.nests hplace (.cons (.single t) (.cons hbody .nil)) ?_
          simp

end Ebnf
