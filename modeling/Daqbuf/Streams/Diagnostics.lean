import Daqbuf.Scylla.Sitems
import Daqbuf.Poll.Stage
/-!
# Log Items of a Stream

{lit}`WithLenHisto` counts the lengths of the batches and logs the counts at the end; {lit}`LogFilter` drops the log
items above a level.

Main results:

- Theorem {lit}`WithLenHisto.drains`: the stream has one more log item, while no batch is too long to be counted.
- Theorem {lit}`LogFilter.drains`: only log items above the level are missing.
-/

namespace Daqbuf
namespace Streams

open Items Poll Scylla

/-! ## Histogram of the lengths -/

/-- {lit}`WithLenHisto`; the input itself is kept beside. -/
structure WithLenHisto where
  inp : Bool
  histo : List ℕ
  name : String

namespace WithLenHisto

variable {T E σ : Type*} [MergeableTy T] (showRes : List ℕ → String → String)

/-- {lit}`new` -/
def new (name : String) : WithLenHisto := { inp := true, histo := List.replicate 32 0, name := name }

/-- The number of bits of a length, as an {lit}`u32` -/
def bits (len : ℕ) : ℕ := Nat.size (len % 2 ^ 32)

/-- {lit}`poll_next`.  How the counts are printed is a parameter.  An index out of the 32 counts is a panic. -/
def stage : Stage WithLenHisto (Sitemty2 T E) (Sitemty2 T E) where
  own s := if s.inp then none else some (.done s)
  item s x :=
    match x with
    | .ok (.dataItem (.data x)) =>
        let n := bits (MergeableTy.len x)
        if n < s.histo.length then
          .item (sitem2Data x) { s with histo := s.histo.modify n fun m => (m + 1) % 2 ^ 32 }
        else .panic
    | .ok (.dataItem .rangeComplete) => .item (.ok (.dataItem .rangeComplete)) s
    | .ok (.log x) => .item (.ok (.log x)) s
    | .ok (.stats x) => .item (.ok (.stats x)) s
    | .error e => .item (.error e) s
  last s :=
    .item (.ok (.log { origin := "", level := .info, msg := showRes s.histo s.name })) { s with inp := false }

/-- A batch that can be counted -/
def Counted : Sitemty2 T E → Prop
  | .ok (.dataItem (.data x)) => MergeableTy.len x < 2 ^ 31
  | _ => True

variable {next : σ → Pass σ (Sitemty2 T E)} {s : σ} {xs : List (Sitemty2 T E)}

/-- The stream goes on as it is, and one log item comes behind it. -/
theorem keeps : (stage (T := T) (E := E) showRes).Keeps Counted
    (fun xs ys a => ys = xs ∧ a.inp = true ∧ a.histo.length = 32)
    (fun xs ys a => a.inp = false ∧ ∃ msg, ys = xs ++ [.ok (.log { origin := "", level := .info, msg := msg })])
    where
  own := by
    rintro xs ys a p ⟨_, hinp, _⟩ hown
    simp [stage, hinp] at hown
  item := by
    rintro xs ys a x hx ⟨rfl, hinp, hlength⟩ _
    cases x with
    | error e => exact ⟨rfl, hinp, hlength⟩
    | ok x =>
        cases x with
        | log l => exact ⟨rfl, hinp, hlength⟩
        | stats t => exact ⟨rfl, hinp, hlength⟩
        | dataItem d =>
            cases d with
            | rangeComplete => exact ⟨rfl, hinp, hlength⟩
            | data x =>
                have hlen : MergeableTy.len x < 2 ^ 31 := hx
                have hbits : bits (MergeableTy.len x) < a.histo.length := by
                  have hle : Nat.size (MergeableTy.len x % 2 ^ 32) ≤ 31 := by
                    apply Nat.size_le.mpr
                    omega
                  rw [bits, hlength]
                  omega
                simp only [stage, if_pos hbits]
                exact ⟨rfl, hinp, by simpa using hlength⟩
  last := by
    rintro xs ys a ⟨rfl, _, _⟩ _
    exact ⟨rfl, _, rfl⟩
  after := by
    rintro xs ys a ⟨hinp, _⟩
    exact ⟨.done a, by simp [stage, hinp], trivial⟩

/-- Over a stream with an end, whose batches can be counted, it ends with one log item more. -/
theorem drains (hnext : Drains next s xs) (hcounted : ∀ x ∈ xs, Counted x) (name : String) :
    ∃ msg, Drains ((stage showRes).pass next) (s, new name)
      (xs ++ [.ok (.log { origin := "", level := .info, msg := msg })]) := by
  have hkeeps : (stage (T := T) (E := E) showRes).Keeps Counted _ _ := keeps showRes
  have hown : ∀ (a b : WithLenHisto) p, (stage (T := T) (E := E) showRes).own a = some p → p.next? = some b →
      0 < 0 := by
    intro a b p hown hb
    simp only [stage] at hown
    split_ifs at hown
    obtain rfl := Option.some.inj hown
    cases hb
  obtain ⟨ys, hys, hcloses⟩ := hkeeps.drains (fun _ => 0) hown hnext hcounted (a := new name) ⟨rfl, rfl, rfl⟩
  cases hcloses with
  | early _ hinv hdone =>
      simp [stage, hinv.2.1] at hdone
  | @onItem zs x a b _ _ _ hdone =>
      cases x with
      | error e => cases hdone
      | ok x =>
          cases x with
          | log l => cases hdone
          | stats t => cases hdone
          | dataItem d =>
              cases d with
              | rangeComplete => cases hdone
              | data x =>
                  simp only [stage] at hdone
                  split_ifs at hdone
  | onLast _ _ hdone => cases hdone
  | late hinv _ =>
      obtain ⟨_, msg, rfl⟩ := hinv
      exact ⟨msg, hys⟩

end WithLenHisto

/-! ## Levels -/

/-- The rank of a level: a log item passes when its level is not above the one that is asked for. -/
def levelRank : Level → ℕ
  | .error => 0
  | .warn => 1
  | .info => 2
  | .debug => 3
  | .trace => 4

namespace LogFilter

variable {T E σ : Type*}

/-- {lit}`poll_next`; the level does not change. -/
def stage (level : Level) : Stage Unit (Sitemty2 T E) (Sitemty2 T E) where
  own _ := none
  item _ x :=
    match x with
    | .ok (.dataItem x) => .item (.ok (.dataItem x)) ()
    | .ok (.log x) => if levelRank x.level ≤ levelRank level then .item (.ok (.log x)) () else .again ()
    | .ok (.stats x) => .item (.ok (.stats x)) ()
    | .error e => .item (.error e) ()
  last _ := .done ()

/-- A log item above the level does not pass. -/
def passes (level : Level) : Sitemty2 T E → Bool
  | .ok (.log x) => levelRank x.level ≤ levelRank level
  | _ => true

/-- The items that pass are handed out. -/
theorem keeps (level : Level) : (stage (T := T) (E := E) level).Keeps (fun _ => True)
    (fun xs ys _ => ys = xs.filter (passes level)) (fun _ _ _ => False) where
  own := by
    intro xs ys a p _ hown
    cases hown
  item := by
    rintro xs ys a x _ rfl _
    have hpass : ∀ y : Sitemty2 T E, passes level y = true →
        xs.filter (passes level) ++ [y] = (xs ++ [y]).filter (passes level) := by
      intro y hy
      rw [List.filter_append, List.filter_cons_of_pos hy, List.filter_nil]
    cases x with
    | error e => exact hpass _ rfl
    | ok x =>
        cases x with
        | dataItem d => exact hpass _ rfl
        | stats t => exact hpass _ rfl
        | log l =>
            simp only [stage]
            split_ifs with hlevel
            · simp [passes, hlevel, Pass.Ensures]
            · simp [passes, hlevel, Pass.Ensures]
  last := fun _ _ _ _ _ => trivial
  after := fun _ _ _ hfalse => hfalse.elim

/-- Over a stream with an end it ends, with the items that pass. -/
theorem drains {next : σ → Pass σ (Sitemty2 T E)} {s : σ} {xs : List (Sitemty2 T E)} (hnext : Drains next s xs)
    (level : Level) : Drains ((stage level).pass next) (s, ()) (xs.filter (passes level)) := by
  obtain ⟨ys, hys, hcloses⟩ := (keeps (T := T) (E := E) level).drains (fun _ => 0)
    (by intro a b p hown; cases hown) hnext (fun _ _ => trivial) rfl
  cases hcloses with
  | early _ _ hdone => cases hdone
  | @onItem zs x a b _ _ _ hdone =>
      cases x with
      | error e => cases hdone
      | ok x =>
          cases x with
          | dataItem d => cases hdone
          | stats t => cases hdone
          | log l =>
              simp only [stage] at hdone
              split_ifs at hdone
  | onLast hinv _ _ =>
      subst hinv
      exact hys
  | late hinv _ => exact hinv.elim

end LogFilter

end Streams
end Daqbuf
