import Xrune.Engine.State

/-!
# Runtime — the life of a voice

A voice by itself, from the command that activates it to its release: in every block it is
played once, and then its lifetime is checked.  `Tenure` is what is kept of a voice, `Step` what
happens to it.  Two things are asked of the steps.  They are *orderly* when a block plays the
voice once, before it ends; and what is `heard` at a check is related to the verdict the check is
given.

* `Tenure.Reached.blocks`: the blocks a voice is checked in follow one another from its
  activation on.
* `Tenure.Reached.counted`: when the steps are orderly it is played in those blocks, and a timed
  voice in at most `max 1 ttl` of them.
* `Tenure.Reached.quiet`: a run of quiet checks is a run of blocks in which what the verdict
  promises was heard.
-/

namespace Xrune

variable {α γ : Type}

/-- Where a voice stands in its block: before it; inside a parallel one, played or not; past the
execution; past the lifetime checks, and why it is to be released, if it is. -/
inductive Turn where
  | before
  | inside (played : Bool)
  | computed
  | checked (why : Option EndReason)
  deriving DecidableEq, Repr

/-- What a check decides, with the counters after it. -/
def LifetimePolicy.verdict (life : LifetimePolicy α) (age silentRun : Nat)
    (finished quiet : Bool) : Option EndReason × Nat × Nat :=
  if finished then (some .finished, age, silentRun)
  else
    match life.kind with
    | .permanent | .untilFinished => (none, age + 1, silentRun)
    | .timed => (if life.ttlBlocks ≤ age + 1 then some .timedOut else none, age + 1, silentRun)
    | .untilSilent =>
        let run := if quiet then silentRun + 1 else 0
        (if life.silenceBlocks ≤ run then some .silent else none, age + 1, run)

/-- A voice: its policy and counters, the block it is in and the one it began in, the blocks it
was played in, and what was heard of it at each check, with the block. -/
structure Tenure (α γ : Type) where
  turn : Turn
  life : LifetimePolicy α
  age : Nat
  silentRun : Nat
  block : Nat
  began : Nat
  played : List Nat
  heard : List (Nat × γ)

namespace Tenure

/-- A voice just activated. -/
def start (life : LifetimePolicy α) (block : Nat) (played : List Nat) : Tenure α γ :=
  ⟨.before, life, 0, 0, block, block, played, []⟩

/-- After a check at which `g` is heard. -/
def check (T : Tenure α γ) (finished quiet : Bool) (g : γ) : Tenure α γ :=
  let v := T.life.verdict T.age T.silentRun finished quiet
  { T with turn := .checked v.1, age := v.2.1, silentRun := v.2.2, heard := T.heard ++ [(T.block, g)] }

/-- What happens to a voice that is not released.  When the steps are not orderly it may be
played at any time. -/
inductive Step (orderly : Prop) (hears : LifetimePolicy α → Bool → γ → Prop) :
    Tenure α γ → Tenure α γ → Prop where
  | enter {T : Tenure α γ} (turn : T.turn = .before) :
      Step orderly hears T { T with turn := .inside false }
  | play {T : Tenure α γ} {played : Bool} (turn : T.turn = .inside played)
      (once : orderly → played = false) :
      Step orderly hears T { T with turn := .inside true, played := T.played ++ [T.block] }
  | leave {T : Tenure α γ} {played : Bool} (turn : T.turn = .inside played)
      (all : orderly → played = true) : Step orderly hears T { T with turn := .computed }
  | compute {T : Tenure α γ} (turn : T.turn = .before) :
      Step orderly hears T { T with turn := .computed, played := T.played ++ [T.block] }
  | check {T : Tenure α γ} (turn : T.turn = .computed) (finished : Bool) {quiet : Bool} {g : γ}
      (heard : hears T.life quiet g) : Step orderly hears T (T.check finished quiet g)
  | next {T : Tenure α γ} (turn : T.turn = .checked none) :
      Step orderly hears T { T with turn := .before, block := T.block + 1 }
  | stray {T : Tenure α γ} (loose : ¬ orderly) :
      Step orderly hears T { T with played := T.played ++ [T.block] }

/-- What a voice comes to from its activation on.  When the steps are orderly it has not been
played before. -/
inductive Reached (orderly : Prop) (hears : LifetimePolicy α → Bool → γ → Prop) :
    Tenure α γ → Prop where
  | start {life : LifetimePolicy α} {block : Nat} {played : List Nat}
      (unplayed : orderly → played = []) : Reached orderly hears (start life block played)
  | step {T T' : Tenure α γ} (run : Reached orderly hears T) (one : Step orderly hears T T') :
      Reached orderly hears T'

/-- The voice is about to be released for `why`. -/
def Releases (T : Tenure α γ) (why : EndReason) : Prop :=
  T.turn = .checked (some why) ∨ T.turn = .before ∧ why = .killed

variable {orderly : Prop} {hears : LifetimePolicy α → Bool → γ → Prop} {T T' : Tenure α γ}

/-! ### The blocks a voice is played in -/

/-- The blocks a voice was checked in, by where it stands. -/
def Consecutive (T : Tenure α γ) : Prop :=
  T.heard.map Prod.fst = List.range' T.began T.heard.length ∧
    T.began + T.heard.length
      = match T.turn with
        | .checked _ => T.block + 1
        | _ => T.block

theorem Step.consecutive (one : Step orderly hears T T') (C : T.Consecutive) :
    T'.Consecutive := by
  obtain ⟨blocks, next⟩ := C
  cases one with
  | enter turn | play turn | leave turn | compute turn =>
      rw [turn] at next
      exact ⟨blocks, next⟩
  | @check turn finished quiet g heard =>
      rw [turn] at next
      have next : T.began + T.heard.length = T.block := next
      refine ⟨?_, by simp [Tenure.check, ← next, Nat.add_assoc]⟩
      simp only [Tenure.check, List.map_append, List.map_cons, List.map_nil, blocks,
        List.length_append, List.length_singleton, List.range'_concat, one_mul, next]
  | next turn =>
      rw [turn] at next
      exact ⟨blocks, next⟩
  | stray loose => exact ⟨blocks, next⟩

/-- **The blocks a voice is checked in** follow one another. -/
theorem Reached.blocks (run : Reached orderly hears T) : T.Consecutive := by
  induction run with
  | start unplayed => exact ⟨rfl, rfl⟩
  | step run one ih => exact one.consecutive ih

/-- A timed voice has blocks left. -/
def InTime (life : LifetimePolicy α) (n : Nat) : Prop :=
  life.kind = .timed → n < max 1 life.ttlBlocks

/-- What a release for `why` says of a voice that was played in `n` blocks. -/
def Due (life : LifetimePolicy α) (why : EndReason) (n : Nat) : Prop :=
  (life.kind = .timed → n ≤ max 1 life.ttlBlocks ∧ why ≠ .silent) ∧
    (why = .timedOut → life.kind = .timed ∧ n = max 1 life.ttlBlocks) ∧
      (why = .silent → life.kind = .untilSilent)

/-- The blocks a voice has been played in, by where it stands. -/
def Counted (T : Tenure α γ) : Prop :=
  match T.turn with
  | .before | .checked none => T.played = List.range' T.began T.heard.length ∧
      T.age = T.heard.length ∧ InTime T.life T.heard.length
  | .inside played => T.played = List.range' T.began (T.heard.length + if played then 1 else 0) ∧
      T.age = T.heard.length ∧ InTime T.life T.heard.length
  | .computed => T.played = List.range' T.began (T.heard.length + 1) ∧
      T.age = T.heard.length ∧ InTime T.life T.heard.length
  | .checked (some why) => T.played = List.range' T.began T.heard.length ∧
      Due T.life why T.heard.length

theorem verdict_counted (life : LifetimePolicy α) {age : Nat} (silentRun : Nat)
    (finished quiet : Bool) (left : InTime life age) :
    (∀ why, (life.verdict age silentRun finished quiet).1 = some why → Due life why (age + 1)) ∧
      ((life.verdict age silentRun finished quiet).1 = none →
        (life.verdict age silentRun finished quiet).2.1 = age + 1 ∧ InTime life (age + 1)) := by
  unfold LifetimePolicy.verdict
  cases finished with
  | true =>
      refine ⟨fun why h => ?_, fun h => by cases h⟩
      cases h
      exact ⟨fun timed => ⟨left timed, by simp⟩, by simp, by simp⟩
  | false =>
      cases kind : life.kind with
      | permanent => exact ⟨fun why h => (by cases h), fun _ => ⟨rfl, fun h => by simp [kind] at h⟩⟩
      | untilFinished =>
          exact ⟨fun why h => (by cases h), fun _ => ⟨rfl, fun h => by simp [kind] at h⟩⟩
      | timed =>
          have left := left kind
          by_cases due : life.ttlBlocks ≤ age + 1
          · refine ⟨fun why h => ?_, fun h => by simp [due] at h⟩
            simp only [Bool.false_eq_true, if_false, if_pos due, Option.some.injEq] at h
            subst h
            exact ⟨fun _ => ⟨left, by simp⟩, fun _ => ⟨kind, by omega⟩, by simp⟩
          · exact ⟨fun why h => by simp [due] at h, fun _ => ⟨rfl, fun _ => by omega⟩⟩
      | untilSilent =>
          refine ⟨fun why h => ?_, fun _ => ⟨rfl, fun h => by simp [kind] at h⟩⟩
          simp only [Bool.false_eq_true, if_false] at h
          split at h
          all_goals
            split at h
            · cases h
              exact ⟨fun h => by simp [kind] at h, by simp, fun _ => kind⟩
            · cases h

/-- Playing the block a voice is in. -/
theorem played_concat (C : T.Consecutive) (inside : ∀ why, T.turn ≠ .checked why)
    (played : T.played = List.range' T.began T.heard.length) :
    T.played ++ [T.block] = List.range' T.began (T.heard.length + 1) := by
  have next : T.began + T.heard.length = T.block := by
    refine C.2.trans ?_
    cases turn : T.turn with
    | checked why => exact absurd turn (inside why)
    | before | inside | computed => rfl
  rw [List.range'_concat, one_mul, next, played]

theorem Step.counted (one : Step orderly hears T T') (holds : orderly) (B : T.Consecutive)
    (C : T.Counted) : T'.Counted := by
  unfold Counted at C
  cases one with
  | enter turn =>
      rw [turn] at C
      exact C
  | play turn once =>
      rw [turn, once holds] at C
      exact ⟨played_concat B (by simp [turn]) C.1, C.2⟩
  | leave turn all =>
      rw [turn, all holds] at C
      exact C
  | compute turn =>
      rw [turn] at C
      exact ⟨played_concat B (by simp [turn]) C.1, C.2⟩
  | @check turn finished quiet g heard =>
      rw [turn] at C
      obtain ⟨played, age, left⟩ := C
      obtain ⟨ended, goesOn⟩ := verdict_counted T.life T.silentRun finished quiet left
      have heard : (T.check finished quiet g).heard.length = T.heard.length + 1 := by
        simp [Tenure.check]
      rw [← age] at ended goesOn
      cases v : (T.life.verdict T.age T.silentRun finished quiet).1 with
      | some why =>
          have turn : (T.check finished quiet g).turn = .checked (some why) :=
            congrArg Turn.checked v
          rw [Counted, turn, heard]
          exact ⟨played, age ▸ ended why v⟩
      | none =>
          have turn : (T.check finished quiet g).turn = .checked none := congrArg Turn.checked v
          obtain ⟨older, left⟩ := goesOn v
          rw [Counted, turn, heard]
          exact ⟨played, older.trans (congrArg (· + 1) age), age ▸ left⟩
  | next turn =>
      rw [turn] at C
      exact C
  | stray loose => exact absurd holds loose

/-- **The blocks a voice is played in**, when the steps are orderly. -/
theorem Reached.counted (run : Reached orderly hears T) (holds : orderly) : T.Counted := by
  induction run with
  | start unplayed =>
      refine ⟨by rw [Tenure.start, unplayed holds]; rfl, rfl, fun _ => ?_⟩
      exact lt_of_lt_of_le Nat.one_pos (Nat.le_max_left ..)
  | step run one ih => exact one.counted holds run.blocks ih

/-- A voice that is released has been played in the blocks it was checked in, and its time was
up if that is why. -/
theorem Reached.released (run : Reached orderly hears T) (holds : orderly) {why : EndReason}
    (ends : T.Releases why) :
    T.played = List.range' T.began T.heard.length ∧ Due T.life why T.heard.length := by
  have C := run.counted holds
  unfold Counted at C
  rcases ends with turn | ⟨turn, rfl⟩
  · rw [turn] at C
    exact C
  · rw [turn] at C
    obtain ⟨played, -, left⟩ := C
    exact ⟨played, fun timed => ⟨(left timed).le, by simp⟩, by simp, by simp⟩

/-! ### The blocks a voice is heard in -/

/-- The last `n` of what was heard is `P`. -/
def QuietFor (P : γ → Prop) (n : Nat) (heard : List (Nat × γ)) : Prop :=
  ∃ earlier last, heard = earlier ++ last ∧ n ≤ last.length ∧ ∀ g ∈ last, P g.2

/-- The run of quiet checks, by where a voice stands. -/
def Quiet (P : LifetimePolicy α → γ → Prop) (T : Tenure α γ) : Prop :=
  match T.turn with
  | .checked (some why) => why = .silent → T.life.kind = .untilSilent ∧
      QuietFor (P T.life) T.life.silenceBlocks T.heard
  | _ => T.life.kind = .untilSilent → QuietFor (P T.life) T.silentRun T.heard

theorem QuietFor.concat {P : γ → Prop} {n : Nat} {heard : List (Nat × γ)}
    (h : QuietFor P n heard) {g : Nat × γ} (hg : P g.2) :
    QuietFor P (n + 1) (heard ++ [g]) := by
  obtain ⟨earlier, last, rfl, long, all⟩ := h
  refine ⟨earlier, last ++ [g], by simp, by simpa using long, fun x hx => ?_⟩
  rcases List.mem_append.mp hx with hx | hx
  · exact all x hx
  · exact List.mem_singleton.mp hx ▸ hg

theorem QuietFor.zero (P : γ → Prop) (heard : List (Nat × γ)) : QuietFor P 0 heard :=
  ⟨heard, [], by simp, le_rfl, by simp⟩

/-- Only one policy gives silence for a reason. -/
theorem verdict_silent {life : LifetimePolicy α} {age silentRun : Nat} {finished quiet : Bool}
    (h : (life.verdict age silentRun finished quiet).1 = some .silent) :
    life.kind = .untilSilent := by
  unfold LifetimePolicy.verdict at h
  cases finished with
  | true => cases h
  | false =>
      cases kind : life.kind with
      | permanent | untilFinished => simp [kind] at h
      | timed =>
          simp only [Bool.false_eq_true, if_false, kind] at h
          split at h <;> cases h
      | untilSilent => rfl

theorem Step.quiet {P : LifetimePolicy α → γ → Prop} (one : Step orderly hears T T')
    (sound : ∀ life quiet g, hears life quiet g → life.kind = .untilSilent → quiet = true →
      P life g) (Q : T.Quiet P) : T'.Quiet P := by
  unfold Quiet at Q
  cases one with
  | @check turn finished quiet g heard =>
      rw [turn] at Q
      by_cases kind : T.life.kind = .untilSilent
      · have run : QuietFor (P T.life) (if quiet then T.silentRun + 1 else 0)
            (T.heard ++ [(T.block, g)]) := by
          cases hq : quiet with
          | true =>
              have hg : P T.life g := sound _ _ _ heard kind hq
              exact (Q kind).concat hg
          | false => exact .zero _ _
        cases finished with
        | true => exact fun h => by cases h
        | false =>
            unfold Quiet Tenure.check LifetimePolicy.verdict
            simp only [Bool.false_eq_true, if_false, kind]
            by_cases long : T.life.silenceBlocks ≤ if quiet then T.silentRun + 1 else 0
            · rw [if_pos long]
              obtain ⟨earlier, last, e, len, all⟩ := run
              exact fun _ => ⟨trivial, earlier, last, e, long.trans len, all⟩
            · rw [if_neg long]
              exact fun _ => run
      · cases v : (T.life.verdict T.age T.silentRun finished quiet).1 with
        | some why =>
            have turn : (T.check finished quiet g).turn = .checked (some why) :=
              congrArg Turn.checked v
            rw [Quiet, turn]
            exact fun h => absurd (verdict_silent (h ▸ v)) kind
        | none =>
            have turn : (T.check finished quiet g).turn = .checked none := congrArg Turn.checked v
            rw [Quiet, turn]
            exact fun h => absurd h kind
  | enter turn | play turn | leave turn | compute turn | next turn =>
      rw [turn] at Q
      exact Q
  | stray loose => exact Q

/-- **A voice released for silence was quiet for as long as its policy asks.** -/
theorem Reached.quiet {P : LifetimePolicy α → γ → Prop} (run : Reached orderly hears T)
    (sound : ∀ life quiet g, hears life quiet g → life.kind = .untilSilent → quiet = true →
      P life g) (silent : T.Releases .silent) :
    T.life.kind = .untilSilent ∧ QuietFor (P T.life) T.life.silenceBlocks T.heard := by
  have Q : T.Quiet P := by
    clear silent
    induction run with
    | start => exact fun _ => .zero _ _
    | step run one ih => exact one.quiet sound ih
  unfold Quiet at Q
  rcases silent with turn | ⟨-, h⟩
  · rw [turn] at Q
    exact Q rfl
  · cases h

end Tenure

end Xrune
