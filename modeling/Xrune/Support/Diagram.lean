import Mathlib

/-!
# Support — block diagrams

A diagram over a type of signals has input ports, which a signal may reach or not, and output
channels.  Diagrams stand side by side (`par`), one feeds another (`into`), and the channels of
one are combined (`post`).

A diagram is *at* the ports and channels of a system when the channels show what the diagram makes
of what reaches the ports (`Diagram.At`).  What is built of diagrams is at what is wired of the
systems they are at.
-/

namespace Xrune

/-- `play` says what channel `c` shows, from what reaches the ports. -/
structure Diagram (S : Type*) where
  ins : Nat
  outs : Nat
  play : (Nat → Option S) → Nat → S

namespace Diagram

variable {S I O : Type*}

/-- A diagram without ports, which shows the one signal. -/
def source (x : S) : Diagram S := ⟨0, 1, fun _ _ => x⟩

/-- Side by side: the ports and the channels of the first come first. -/
def par (a b : Diagram S) : Diagram S where
  ins := a.ins + b.ins
  outs := a.outs + b.outs
  play x c :=
    if c < a.outs then a.play (fun j => if j < a.ins then x j else none) c
    else b.play (fun j => x (a.ins + j)) (c - a.outs)

/-- Port `j` of the second gets `w j` of the channels of the first. -/
def into (a : Diagram S) (w : (Nat → S) → Nat → S) (b : Diagram S) : Diagram S where
  ins := a.ins
  outs := b.outs
  play x := b.play fun j => if j < b.ins then some (w (a.play x) j) else none

/-- `n` channels made of the channels of the diagram. -/
def post (a : Diagram S) (n : Nat) (w : (Nat → S) → Nat → S) : Diagram S where
  ins := a.ins
  outs := n
  play x := w (a.play x)

/-- What reaches a list of ports. -/
def reaching (arrive : I → Option S) (ins : List I) (j : Nat) : Option S := ins[j]?.bind arrive

/-- The diagram is at these ports and channels, of a system in which `arrive` reaches the ports
and the channels show `shown`. -/
structure At (d : Diagram S) (arrive : I → Option S) (shown : O → S) (ins : List I)
    (outs : List O) : Prop where
  takes : ins.length = d.ins
  gives : outs.length = d.outs
  plays : ∀ {c o}, outs[c]? = some o → shown o = d.play (reaching arrive ins) c

namespace At

variable {a b : Diagram S} {arrive : I → Option S} {shown : O → S} {ins ins' : List I}
  {outs outs' : List O}

theorem source {x : S} {o : O} (h : shown o = x) :
    (Diagram.source x).At arrive shown [] [o] where
  takes := rfl
  gives := rfl
  plays := by
    intro c o' here
    match c with
    | 0 => exact Option.some.inj here ▸ h
    | c + 1 => cases here

theorem par (ha : a.At arrive shown ins outs) (hb : b.At arrive shown ins' outs') :
    (a.par b).At arrive shown (ins ++ ins') (outs ++ outs') where
  takes := by rw [List.length_append, ha.takes, hb.takes]; rfl
  gives := by rw [List.length_append, ha.gives, hb.gives]; rfl
  plays := by
    intro c o here
    by_cases left : c < a.outs
    · rw [List.getElem?_append_left (ha.gives ▸ left)] at here
      have cut : (fun j => if j < a.ins then reaching arrive (ins ++ ins') j else none)
          = reaching arrive ins := by
        funext j
        by_cases hj : j < a.ins
        · rw [if_pos hj, reaching, reaching, List.getElem?_append_left (ha.takes ▸ hj)]
        · rw [if_neg hj, reaching, List.getElem?_eq_none (ha.takes ▸ Nat.le_of_not_lt hj)]
          rfl
      simp only [Diagram.par, if_pos left, cut]
      exact ha.plays here
    · rw [List.getElem?_append_right (ha.gives ▸ Nat.le_of_not_lt left), ha.gives] at here
      have rest : (fun j => reaching arrive (ins ++ ins') (a.ins + j)) = reaching arrive ins' := by
        funext j
        rw [reaching, reaching, ← ha.takes, List.getElem?_append_right (Nat.le_add_right _ j),
          Nat.add_sub_cancel_left]
      simp only [Diagram.par, if_neg left, rest]
      exact hb.plays here

/-- **Wiring**: each port of the second gets what it should of what the first shows. -/
theorem into {w : (Nat → S) → Nat → S} (ha : a.At arrive shown ins outs)
    (hb : b.At arrive shown ins' outs')
    (wired : ∀ {j i}, ins'[j]? = some i → arrive i = some (w (a.play (reaching arrive ins)) j)) :
    (a.into w b).At arrive shown ins outs' where
  takes := ha.takes
  gives := hb.gives
  plays := by
    intro c o here
    have fed : reaching arrive ins'
        = fun j => if j < b.ins then some (w (a.play (reaching arrive ins)) j) else none := by
      funext j
      rw [reaching]
      by_cases hj : j < b.ins
      · have port : ins'[j]? = some (ins'.get ⟨j, hb.takes.symm ▸ hj⟩) := List.getElem?_eq_getElem _
        rw [if_pos hj, port]
        exact wired port
      · rw [if_neg hj, List.getElem?_eq_none (hb.takes ▸ Nat.le_of_not_lt hj)]
        rfl
    rw [hb.plays here, fed]
    rfl

/-- New channels, each showing what it should. -/
theorem post {n : Nat} {w : (Nat → S) → Nat → S} (ha : a.At arrive shown ins outs)
    (count : outs'.length = n)
    (new : ∀ {c o}, outs'[c]? = some o → shown o = w (a.play (reaching arrive ins)) c) :
    (a.post n w).At arrive shown ins outs' :=
  ⟨ha.takes, count, new⟩

end At

end Diagram

end Xrune
