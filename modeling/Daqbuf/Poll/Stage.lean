import Daqbuf.Poll.Loop
/-!
# Stages of a Stream

A stage polls a stream and hands out what it makes of its items.  Before it polls, it may hand out what it still
has, or report the end by itself; it may take an item and hand out nothing, and it may hand out more behind the end
of the stream.  It is pending where the stream is.

Main results:

- Theorem {lit}`Stage.Keeps.reaches`: an invariant of a stage, on the items that it read and the items that it
  handed out, holds in all its runs over any stream.
- Theorem {lit}`Stage.Keeps.drains`: the stage ends over any stream that ends, with what the invariant says of the
  pass that ends it.
- Theorem {lit}`drains_scan`: a stage that hands out one item for each ends with the stream.
-/

namespace Poll

variable {σ α ι ω : Type*}

/-- The stream of a script -/
def Script.next : Script ι → Pass (Script ι) ι
  | [] => .done []
  | .pending :: rest => .pending rest
  | .ready x :: rest => .item x rest

/-- It hands out the items of the script. -/
theorem Script.drains_next (sc : Script ι) : Drains Script.next sc (Script.items sc) := by
  induction sc with
  | nil => exact .of_done rfl
  | cons answer rest ih =>
      cases answer with
      | pending => exact .of_pending rfl ih
      | ready x => exact .of_item rfl ih

/-- What a stage does by itself, with an item of the stream, and at the end of the stream. -/
structure Stage (α ι ω : Type*) where
  own : α → Option (Pass α ω)
  item : α → ι → Pass α ω
  last : α → Pass α ω

/-- A pass of the stage over a stream -/
def Stage.pass (g : Stage α ι ω) (next : σ → Pass σ ι) (v : σ × α) : Pass (σ × α) ω :=
  match g.own v.2 with
  | some p => p.map fun a => (v.1, a)
  | none =>
      match next v.1 with
      | .again s => .again (s, v.2)
      | .pending s => .pending (s, v.2)
      | .item x s => (g.item v.2 x).map fun a => (s, a)
      | .done s => (g.last v.2).map fun a => (s, a)
      | .panic => .panic

section Pass

variable {g : Stage α ι ω} {next : σ → Pass σ ι} {s t : σ} {a : α}

theorem Stage.pass_own {p : Pass α ω} (hown : g.own a = some p) :
    g.pass next (s, a) = p.map fun b => (s, b) := by
  simp [Stage.pass, hown]

theorem Stage.pass_again (hown : g.own a = none) (hnext : next s = .again t) :
    g.pass next (s, a) = .again (t, a) := by
  simp [Stage.pass, hown, hnext]

theorem Stage.pass_pending (hown : g.own a = none) (hnext : next s = .pending t) :
    g.pass next (s, a) = .pending (t, a) := by
  simp [Stage.pass, hown, hnext]

theorem Stage.pass_item {x : ι} (hown : g.own a = none) (hnext : next s = .item x t) :
    g.pass next (s, a) = (g.item a x).map fun b => (t, b) := by
  simp [Stage.pass, hown, hnext]

theorem Stage.pass_last (hown : g.own a = none) (hnext : next s = .done t) :
    g.pass next (s, a) = (g.last a).map fun b => (t, b) := by
  simp [Stage.pass, hown, hnext]

end Pass

/-- What the map of a pass ensures, the pass ensures of its image. -/
theorem Pass.ensures_map {f : α → σ} {p : Pass α ω} {ys : List ω} {Q : List ω → σ → Prop} :
    (p.map f).Ensures ys Q ↔ p.Ensures ys fun zs a => Q zs (f a) := by
  cases p with
  | again a => exact Iff.rfl
  | pending a => exact Iff.rfl
  | item x a => exact Iff.rfl
  | done a => exact Iff.rfl
  | panic => exact Iff.rfl

/-! ## Invariants of a stage -/

/-- For items with {lit}`P`, {lit}`I` holds of the items read, the items handed out and the state while the stream
goes on, and {lit}`J` behind its end, where the stage does not poll the stream again. -/
structure Stage.Keeps (g : Stage α ι ω) (P : ι → Prop) (I J : List ι → List ω → α → Prop) : Prop where
  own : ∀ xs ys a p, I xs ys a → g.own a = some p → p.Ensures ys (I xs)
  item : ∀ xs ys a x, P x → I xs ys a → g.own a = none → (g.item a x).Ensures ys (I (xs ++ [x]))
  last : ∀ xs ys a, I xs ys a → g.own a = none → (g.last a).Ensures ys (J xs)
  after : ∀ xs ys a, J xs ys a → ∃ p, g.own a = some p ∧ p.Ensures ys (J xs)

/-- How a stage with an invariant ends, over a stream with the items {lit}`xs`. -/
inductive Stage.Closes (g : Stage α ι ω) (I J : List ι → List ω → α → Prop) (xs : List ι) (ys : List ω) : Prop
  /-- by itself, before the stream ended -/
  | early {zs : List ι} {a b : α} (hpre : zs <+: xs) (hinv : I zs ys a) (hdone : g.own a = some (.done b))
  /-- with an item of the stream -/
  | onItem {zs : List ι} {x : ι} {a b : α} (hpre : zs ++ [x] <+: xs) (hinv : I zs ys a) (hown : g.own a = none)
      (hdone : g.item a x = .done b)
  /-- with the end of the stream -/
  | onLast {a b : α} (hinv : I xs ys a) (hown : g.own a = none) (hdone : g.last a = .done b)
  /-- by itself, behind the end of the stream -/
  | late {a b : α} (hinv : J xs ys a) (hdone : g.own a = some (.done b))

section Keeps

variable {g : Stage α ι ω} {P : ι → Prop} {I J : List ι → List ω → α → Prop} {next : σ → Pass σ ι} {s : σ} {a : α}
  {ys : List ω} {v : σ × α}

/-- The invariant, with the run of the stream behind it. -/
def Stage.Along (next : σ → Pass σ ι) (s : σ) (I J : List ι → List ω → α → Prop) (ys : List ω) (v : σ × α) : Prop :=
  ∃ xs, (Reaches next s xs v.1 ∧ I xs ys v.2) ∨ (Drains next s xs ∧ J xs ys v.2)

/-- The stream does not panic, and its items have {lit}`P`. -/
structure Calm (next : σ → Pass σ ι) (s : σ) (P : ι → Prop) : Prop where
  noPanic : ¬ Panics next s
  items : ∀ xs t, Reaches next s xs t → ∀ x ∈ xs, P x

/-- One pass of the stage, over a stream that does not panic -/
theorem Stage.Keeps.ensures (hkeeps : g.Keeps P I J) (hnext : Calm next s P) (hinv : Along next s I J ys v) :
    (g.pass next v).Ensures ys (Along next s I J) := by
  obtain ⟨t, b⟩ := v
  obtain ⟨xs, ⟨hrun, hI⟩ | ⟨hdrains, hJ⟩⟩ := hinv
  · cases hown : g.own b with
    | some p =>
        rw [Stage.pass_own hown, Pass.ensures_map]
        exact (hkeeps.own xs ys b p hI hown).mono fun zs c hc => ⟨xs, .inl ⟨hrun, hc⟩⟩
    | none =>
        cases hpass : next t with
        | again u =>
            rw [Stage.pass_again hown hpass]
            exact ⟨xs, .inl ⟨hrun.again hpass, hI⟩⟩
        | pending u =>
            rw [Stage.pass_pending hown hpass]
            exact ⟨xs, .inl ⟨hrun.pending hpass, hI⟩⟩
        | item x u =>
            have hx : P x := hnext.items _ _ (hrun.item hpass) x (by simp)
            rw [Stage.pass_item hown hpass, Pass.ensures_map]
            apply (hkeeps.item xs ys b x hx hI hown).mono
            intro zs c hc
            exact ⟨xs ++ [x], .inl ⟨hrun.item hpass, hc⟩⟩
        | done u =>
            rw [Stage.pass_last hown hpass, Pass.ensures_map]
            apply (hkeeps.last xs ys b hI hown).mono
            intro zs c hc
            exact ⟨xs, .inr ⟨⟨t, u, hrun, hpass⟩, hc⟩⟩
        | panic => exact absurd ⟨xs, t, hrun, hpass⟩ hnext.noPanic
  · obtain ⟨p, hown, hp⟩ := hkeeps.after xs ys b hJ
    rw [Stage.pass_own hown, Pass.ensures_map]
    exact hp.mono fun zs c hc => ⟨xs, .inr ⟨hdrains, hc⟩⟩

/-- The invariant holds in every run of the stage over the stream. -/
theorem Stage.Keeps.reaches (hkeeps : g.Keeps P I J) (hnext : Calm next s P) (hstart : I [] [] a)
    (hrun : Reaches (g.pass next) (s, a) ys v) : Along next s I J ys v := by
  apply hrun.inv (I := Along next s I J)
  · exact ⟨[], .inl ⟨.refl, hstart⟩⟩
  · intro zs w _ hw
    exact .inr (hkeeps.ensures hnext hw)

/-- The stage does not panic over a stream that does not. -/
theorem Stage.Keeps.not_panics (hkeeps : g.Keeps P I J) (hnext : Calm next s P) (hstart : I [] [] a) :
    ¬ Panics (g.pass next) (s, a) := by
  rintro ⟨ys, v, hrun, hpanic⟩
  have hpost := hkeeps.ensures hnext (hkeeps.reaches hnext hstart hrun)
  rw [hpanic] at hpost
  exact hpost

end Keeps

/-! ## Ends -/

/-- Induction over the passes of a stream that ends. -/
theorem Drains.rec_head {step : σ → Pass σ ι} {P : σ → List ι → Prop} {s : σ} {xs : List ι}
    (hdrains : Drains step s xs) (hdone : ∀ s t, step s = .done t → P s [])
    (hagain : ∀ s t xs, step s = .again t → P t xs → P s xs)
    (hpending : ∀ s t xs, step s = .pending t → P t xs → P s xs)
    (hitem : ∀ s t x xs, step s = .item x t → P t xs → P s (x :: xs)) : P s xs := by
  obtain ⟨t, u, hrun, hend⟩ := hdrains
  suffices hgoal : ∀ ys, P t ys → P s (xs ++ ys) by
    simpa using hgoal [] (hdone t u hend)
  clear hend
  induction hrun with
  | refl =>
      intro ys hys
      exact hys
  | again _ hpass ih =>
      intro ys hys
      exact ih ys (hagain _ _ ys hpass hys)
  | pending _ hpass ih =>
      intro ys hys
      exact ih ys (hpending _ _ ys hpass hys)
  | @item xs v w x _ hpass ih =>
      intro ys hys
      rw [List.append_assoc]
      exact ih (x :: ys) (hitem _ _ x ys hpass hys)

section Ends

variable {g : Stage α ι ω} {P : ι → Prop} {I J : List ι → List ω → α → Prop} {next : σ → Pass σ ι} {s t : σ}
  {a : α} {xs zs : List ι} {ys : List ω}

/-- The stage goes on to an end, as its invariants say. -/
def Stage.EndsWell (g : Stage α ι ω) (next : σ → Pass σ ι) (I J : List ι → List ω → α → Prop) (xs : List ι)
    (ys : List ω) (v : σ × α) : Prop :=
  ∃ ws, Drains (g.pass next) v ws ∧ g.Closes I J xs (ys ++ ws)

/-- A pass leads to an end where the states behind it do. -/
theorem Stage.EndsWell.of_pass {v : σ × α} {p : Pass α ω} (hpass : g.pass next v = p.map fun b => (s, b))
    {Q : List ω → α → Prop} (hp : p.Ensures ys Q) (hdone : ∀ b, p = .done b → g.Closes I J xs ys)
    (hrest : ∀ zs b, p.next? = some b → Q zs b → g.EndsWell next I J xs zs (s, b)) :
    g.EndsWell next I J xs ys v := by
  cases p with
  | again b =>
      obtain ⟨ws, hdrains, hcloses⟩ := hrest ys b rfl hp
      exact ⟨ws, .of_again hpass hdrains, hcloses⟩
  | pending b =>
      obtain ⟨ws, hdrains, hcloses⟩ := hrest ys b rfl hp
      exact ⟨ws, .of_pending hpass hdrains, hcloses⟩
  | item y b =>
      obtain ⟨ws, hdrains, hcloses⟩ := hrest (ys ++ [y]) b rfl hp
      refine ⟨y :: ws, .of_item hpass hdrains, ?_⟩
      simpa using hcloses
  | done b =>
      refine ⟨[], .of_done hpass, ?_⟩
      simpa using hdone b rfl
  | panic => exact hp.elim

variable (rank : α → ℕ)

/-- What the stage does by itself comes to an end, or to a poll of the stream. -/
theorem Stage.Keeps.endsWell_of_poll (hkeeps : g.Keeps P I J)
    (hrank : ∀ a b p, g.own a = some p → p.next? = some b → rank b < rank a) (hpre : zs <+: xs)
    (hpoll : ∀ ys a, I zs ys a → g.own a = none → g.EndsWell next I J xs ys (s, a)) (hinv : I zs ys a) :
    g.EndsWell next I J xs ys (s, a) := by
  induction hr : rank a using Nat.strong_induction_on generalizing a ys with
  | _ n ih =>
      cases hown : g.own a with
      | none => exact hpoll ys a hinv hown
      | some p =>
          apply Stage.EndsWell.of_pass (Stage.pass_own hown) (hkeeps.own zs ys a p hinv hown)
          · intro b hb
            subst hb
            exact .early hpre hinv hown
          · intro ws b hnext hb
            exact ih _ (hr ▸ hrank a b p hown hnext) hb rfl

/-- Behind the end of the stream the stage comes to an end. -/
theorem Stage.Keeps.endsWell_after (hkeeps : g.Keeps P I J)
    (hrank : ∀ a b p, g.own a = some p → p.next? = some b → rank b < rank a) (hinv : J xs ys a) :
    g.EndsWell next I J xs ys (s, a) := by
  induction hr : rank a using Nat.strong_induction_on generalizing a ys with
  | _ n ih =>
      obtain ⟨p, hown, hp⟩ := hkeeps.after xs ys a hinv
      apply Stage.EndsWell.of_pass (Stage.pass_own hown) hp
      · intro b hb
        subst hb
        exact .late hinv hown
      · intro ws b hnext hb
        exact ih _ (hr ▸ hrank a b p hown hnext) hb rfl

/-- Over a stream that ends the stage ends, when a rank bounds what it does by itself. -/
theorem Stage.Keeps.drains (hkeeps : g.Keeps P I J)
    (hrank : ∀ a b p, g.own a = some p → p.next? = some b → rank b < rank a) (hnext : Drains next s xs)
    (hitems : ∀ x ∈ xs, P x) (hstart : I [] [] a) : ∃ ys, Drains (g.pass next) (s, a) ys ∧ g.Closes I J xs ys := by
  suffices hgoal : ∀ zs ys a, I zs ys a → g.EndsWell next I J (zs ++ xs) ys (s, a) from hgoal [] [] a hstart
  refine hnext.rec_head (P := fun s xs => (∀ x ∈ xs, P x) → ∀ zs ys a, I zs ys a →
    g.EndsWell next I J (zs ++ xs) ys (s, a)) ?_ ?_ ?_ ?_ hitems
  · intro s t hpass _ zs ys a hinv
    apply hkeeps.endsWell_of_poll rank hrank (List.prefix_append _ _) _ hinv
    intro ys a hinv hown
    apply Stage.EndsWell.of_pass (Stage.pass_last hown hpass) (hkeeps.last zs ys a hinv hown)
    · intro b hb
      rw [List.append_nil]
      exact .onLast hinv hown hb
    · intro ws b _ hb
      rw [List.append_nil]
      exact hkeeps.endsWell_after rank hrank hb
  · intro s t xs hpass ih hxs zs ys a hinv
    apply hkeeps.endsWell_of_poll rank hrank (List.prefix_append _ _) _ hinv
    intro ys a hinv hown
    obtain ⟨ws, hdrains, hcloses⟩ := ih hxs zs ys a hinv
    exact ⟨ws, .of_again (Stage.pass_again hown hpass) hdrains, hcloses⟩
  · intro s t xs hpass ih hxs zs ys a hinv
    apply hkeeps.endsWell_of_poll rank hrank (List.prefix_append _ _) _ hinv
    intro ys a hinv hown
    obtain ⟨ws, hdrains, hcloses⟩ := ih hxs zs ys a hinv
    exact ⟨ws, .of_pending (Stage.pass_pending hown hpass) hdrains, hcloses⟩
  · intro s t x xs hpass ih hxs zs ys a hinv
    obtain ⟨hx, hrest⟩ := List.forall_mem_cons.mp hxs
    apply hkeeps.endsWell_of_poll rank hrank (List.prefix_append _ _) _ hinv
    intro ys a hinv hown
    have hsplit : zs ++ x :: xs = (zs ++ [x]) ++ xs := by simp
    apply Stage.EndsWell.of_pass (Stage.pass_item hown hpass) (hkeeps.item zs ys a x hx hinv hown)
    · intro b hb
      rw [hsplit]
      exact .onItem (List.prefix_append _ _) hinv hown hb
    · intro ws b _ hb
      rw [hsplit]
      exact ih hrest (zs ++ [x]) ws b hb

end Ends

/-! ## One item for each -/

/-- What is made of the items one by one, from what is kept at first. -/
def scanItems (f : α → ι → ω × α) : α → List ι → List ω
  | _, [] => []
  | a, x :: xs => (f a x).1 :: scanItems f (f a x).2 xs

/-- What is kept behind the items. -/
def scanKept (f : α → ι → ω × α) (a : α) (xs : List ι) : α := xs.foldl (fun a x => (f a x).2) a

/-- The stage that hands out one item for each and keeps something in between. -/
def scan (f : α → ι → ω × α) : Stage α ι ω where
  own _ := none
  item a x := .item (f a x).1 (f a x).2
  last a := .done a

section Scan

variable {f : α → ι → ω × α} {next : σ → Pass σ ι} {s : σ} {a : α} {xs : List ι} {ys : List ω} {v : σ × α}

@[simp]
theorem scanItems_nil : scanItems f a [] = [] := rfl

@[simp]
theorem scanItems_cons (x : ι) : scanItems f a (x :: xs) = (f a x).1 :: scanItems f (f a x).2 xs := rfl

@[simp]
theorem scanKept_nil : scanKept f a [] = a := rfl

theorem scanKept_append (xs xs' : List ι) : scanKept f a (xs ++ xs') = scanKept f (scanKept f a xs) xs' :=
  List.foldl_append

theorem scanItems_append (xs xs' : List ι) :
    scanItems f a (xs ++ xs') = scanItems f a xs ++ scanItems f (scanKept f a xs) xs' := by
  induction xs generalizing a with
  | nil => rfl
  | cons x xs ih =>
      rw [List.cons_append, scanItems_cons, ih, scanItems_cons, List.cons_append]
      rfl

/-- What the stage has handed out and keeps is determined by what it read. -/
theorem scan_keeps (f : α → ι → ω × α) (a : α) :
    (scan f).Keeps (fun _ => True) (fun xs ys b => ys = scanItems f a xs ∧ b = scanKept f a xs) fun _ _ _ => False where
  own := by
    intro xs ys b p _ hown
    cases hown
  item := by
    rintro xs ys b x _ ⟨rfl, rfl⟩ _
    exact ⟨(scanItems_append xs [x]).symm, (scanKept_append xs [x]).symm⟩
  last := fun _ _ _ _ _ => trivial
  after := fun _ _ _ hfalse => hfalse.elim

/-- In every run of the stage -/
theorem reaches_scan (hnext : ¬ Panics next s) (hrun : Reaches ((scan f).pass next) (s, a) ys v) :
    ∃ xs, Reaches next s xs v.1 ∧ ys = scanItems f a xs ∧ v.2 = scanKept f a xs := by
  obtain ⟨xs, ⟨hxs, hinv⟩ | ⟨_, hfalse⟩⟩ := (scan_keeps f a).reaches ⟨hnext, fun _ _ _ _ _ => trivial⟩ ⟨rfl, rfl⟩ hrun
  · exact ⟨xs, hxs, hinv⟩
  · exact hfalse.elim

/-- The stage ends with the stream. -/
theorem drains_scan (hnext : Drains next s xs) : Drains ((scan f).pass next) (s, a) (scanItems f a xs) := by
  obtain ⟨ys, hys, hcloses⟩ := (scan_keeps f a).drains (fun _ => 0) (by intro b c p hown; cases hown) hnext
    (fun _ _ => trivial) ⟨rfl, rfl⟩
  cases hcloses with
  | early _ _ hdone => cases hdone
  | onItem _ _ _ hdone => cases hdone
  | onLast hinv _ _ =>
      obtain ⟨rfl, _⟩ := hinv
      exact hys
  | late hinv _ => exact hinv.elim

end Scan

/-- The stage that maps each item. -/
def mapped (f : ι → ω) : Stage Unit ι ω := scan fun _ x => (f x, ())

section Mapped

variable {f : ι → ω} {next : σ → Pass σ ι} {s : σ} {xs : List ι}

/-- A mapped stream ends with the stream. -/
theorem drains_mapped (hnext : Drains next s xs) : Drains ((mapped f).pass next) (s, ()) (xs.map f) := by
  have hitems : ∀ xs : List ι, scanItems (fun (_ : Unit) x => (f x, ())) () xs = xs.map f := by
    intro xs
    induction xs with
    | nil => rfl
    | cons x xs ih => rw [scanItems_cons, ih, List.map_cons]
  rw [← hitems]
  exact drains_scan hnext

end Mapped

end Poll
