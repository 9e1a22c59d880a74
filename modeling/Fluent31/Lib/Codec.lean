/-
Decoders, and the encodings they undo.

A decoder takes a value off an input and leaves the rest of the input, or fails.
Inputs are of any kind; `view` lists the tokens an input has left.  `Inverts`
says that a decoder reads every admitted value off its encoding, `Canonical`
that it reads nothing else.  Both are proved field by field (`bind`) and item by
item (`times`).

* `Codec.prefix_free` — no encoding begins another;
* `Codec.exact` — so the decoder of a whole string undoes its encoder, accepts
  nothing but encodings, and rejects every one that was cut short or extended;
* `Local.bind` — a value read off an input is read off every longer one;
* `Avoids.bind`, `Avoids.times` — a failure none of the parts ends in, the whole
  does not end in;
* `Yields.bind`, `Yields.times` — what is true of the values of the parts;
* `Ensures.bind` — a run that keeps an invariant and ends, one step after the other.
-/
import Mathlib.Algebra.Order.Ring.Nat
import Mathlib.Data.List.Basic
import Mathlib.Tactic.Common

universe u

abbrev Decoder (σ ε : Type u) := StateT σ (Except ε)

namespace Decoder

variable {σ ε α β γ : Type u} {τ : Type*} {view : σ → List τ} {enc : α → List τ} {ok : α → Prop}
  {p : Decoder σ ε α} {s s' : σ}

theorem run_bind (p : Decoder σ ε α) (k : α → Decoder σ ε β) (s : σ) :
    (p >>= k).run s = (p.run s).bind fun r => (k r.1).run r.2 := rfl

theorem bind_eq_ok {x : Except ε α} {f : α → Except ε β} {b : β} :
    x.bind f = .ok b ↔ ∃ a, x = .ok a ∧ f a = .ok b := by
  cases x with
  | error e => exact ⟨fun h => (nomatch h), fun ⟨_, h, _⟩ => (nomatch h)⟩
  | ok a => exact ⟨fun h => ⟨a, rfl, h⟩, fun ⟨_, h, hf⟩ => Except.ok.inj h ▸ hf⟩

theorem run_bind_eq_ok {k : α → Decoder σ ε β} {b : β} :
    (p >>= k).run s = .ok (b, s') ↔ ∃ a t, p.run s = .ok (a, t) ∧ (k a).run t = .ok (b, s') := by
  rw [run_bind, bind_eq_ok]
  exact ⟨fun ⟨⟨a, t⟩, h⟩ => ⟨a, t, h⟩, fun ⟨a, t, h⟩ => ⟨(a, t), h⟩⟩

/-- Run `p` `n` times. -/
def times (p : Decoder σ ε α) : ℕ → Decoder σ ε (List α)
  | 0 => pure []
  | n + 1 => do
    let a ← p
    let as ← times p n
    pure (a :: as)

/-- The decoder reads every admitted value off its encoding. -/
def Inverts (view : σ → List τ) (enc : α → List τ) (ok : α → Prop) (p : Decoder σ ε α) : Prop :=
  ∀ ⦃a⦄, ok a → ∀ ⦃s rest⦄, view s = enc a ++ rest → ∃ s', p.run s = .ok (a, s') ∧ view s' = rest

/-- The decoder reads nothing but encodings of admitted values. -/
def Canonical (view : σ → List τ) (enc : α → List τ) (ok : α → Prop) (p : Decoder σ ε α) : Prop :=
  ∀ ⦃s a s'⦄, p.run s = .ok (a, s') → ok a ∧ view s = enc a ++ view s'

/-! ### Undoing an encoding -/

/-- A value whose admitted form is fixed takes nothing off the input. -/
theorem Inverts.pure {c : α} (h : ∀ a, ok a → a = c) :
    Inverts view (fun _ => []) ok (pure c : Decoder σ ε α) :=
  fun a ha s _ hs => ⟨s, by rw [h a ha]; rfl, hs⟩

/-- **One field and then the others.** -/
theorem Inverts.bind {okc : γ → Prop} {f : γ → α} {encRest : γ → List τ} {k : α → Decoder σ ε γ}
    (hp : Inverts view enc ok p) (hf : ∀ c, okc c → ok (f c))
    (hk : ∀ a, ok a → Inverts view encRest (fun c => okc c ∧ f c = a) (k a)) :
    Inverts view (fun c => enc (f c) ++ encRest c) okc (p >>= k) := by
  intro c hc s rest hs
  rw [List.append_assoc] at hs
  obtain ⟨t, hrun, ht⟩ := hp (hf c hc) hs
  obtain ⟨s', hrest, hs'⟩ := hk (f c) (hf c hc) ⟨hc, rfl⟩ ht
  exact ⟨s', run_bind_eq_ok.mpr ⟨_, _, hrun, hrest⟩, hs'⟩

theorem Inverts.mono {ok' : α → Prop} (hp : Inverts view enc ok p) (h : ∀ a, ok' a → ok a) :
    Inverts view enc ok' p :=
  fun a ha => hp (h a ha)

/-- The last field of a record. -/
theorem Inverts.last {okc : γ → Prop} {f : γ → α} {g : α → γ} (hp : Inverts view enc ok p)
    (hf : ∀ c, okc c → ok (f c)) (hg : ∀ a, ok a → ∀ c, okc c ∧ f c = a → c = g a) :
    Inverts view (fun c => enc (f c)) okc (p >>= fun a => Pure.pure (g a)) := by
  intro c hc s rest hs
  have hs : view s = (enc (f c) ++ []) ++ rest := by rw [List.append_nil, hs]
  exact hp.bind hf (fun a ha => Inverts.pure (hg a ha)) hc hs

theorem Inverts.times (hp : Inverts view enc ok p) (n : ℕ) :
    Inverts view (fun as => as.flatMap enc) (fun as => as.length = n ∧ ∀ a ∈ as, ok a)
      (times p n) := by
  induction n with
  | zero =>
    rintro as ⟨hlen, -⟩ s rest hs
    obtain rfl := List.length_eq_zero_iff.mp hlen
    exact ⟨s, rfl, hs⟩
  | succ n ih =>
    rintro (_ | ⟨a, as⟩) ⟨hlen, hok⟩ s rest hs
    · exact absurd hlen (by simp)
    · have hs : view s = enc a ++ (as.flatMap enc ++ rest) := hs.trans (List.append_assoc _ _ _)
      obtain ⟨t, hrun, ht⟩ := hp (hok a List.mem_cons_self) hs
      obtain ⟨s', hrest, hs'⟩ :=
        ih ⟨Nat.succ_inj.mp hlen, fun x hx => hok x (List.mem_cons_of_mem _ hx)⟩ ht
      exact ⟨s', run_bind_eq_ok.mpr ⟨_, _, hrun, run_bind_eq_ok.mpr ⟨_, _, hrest, rfl⟩⟩, hs'⟩

/-! ### Nothing but encodings -/

theorem Canonical.pure {c : α} (h : ok c) :
    Canonical view (fun _ => []) ok (pure c : Decoder σ ε α) := by
  intro s a s' hrun
  obtain ⟨rfl, rfl⟩ := Prod.mk.inj (Except.ok.inj hrun)
  exact ⟨h, rfl⟩

theorem Canonical.bind {okc : γ → Prop} {f : γ → α} {encRest : γ → List τ} {k : α → Decoder σ ε γ}
    (hp : Canonical view enc ok p)
    (hk : ∀ a, ok a → Canonical view encRest (fun c => okc c ∧ f c = a) (k a)) :
    Canonical view (fun c => enc (f c) ++ encRest c) okc (p >>= k) := by
  intro s c s' hrun
  obtain ⟨a, t, hpa, hka⟩ := run_bind_eq_ok.mp hrun
  obtain ⟨hoka, hs⟩ := hp hpa
  obtain ⟨⟨hokc, rfl⟩, ht⟩ := hk a hoka hka
  exact ⟨hokc, by rw [hs, ht, List.append_assoc]⟩

theorem Canonical.times (hp : Canonical view enc ok p) (n : ℕ) :
    Canonical view (fun as => as.flatMap enc) (fun as => as.length = n ∧ ∀ a ∈ as, ok a)
      (times p n) := by
  induction n with
  | zero =>
    intro s as s' hrun
    obtain ⟨rfl, rfl⟩ := Prod.mk.inj (Except.ok.inj hrun)
    exact ⟨⟨rfl, fun a ha => absurd ha List.not_mem_nil⟩, rfl⟩
  | succ n ih =>
    intro s as s' hrun
    obtain ⟨a, t, hpa, hrun⟩ := run_bind_eq_ok.mp hrun
    obtain ⟨as', t', htimes, hpure⟩ := run_bind_eq_ok.mp hrun
    obtain ⟨rfl, rfl⟩ := Prod.mk.inj (Except.ok.inj hpure)
    obtain ⟨hok, hs⟩ := hp hpa
    obtain ⟨⟨hlen, hall⟩, ht⟩ := ih htimes
    refine ⟨⟨congrArg (· + 1) hlen, List.forall_mem_cons.mpr ⟨hok, hall⟩⟩, ?_⟩
    show view s = (a :: as').flatMap enc ++ view t'
    rw [hs, ht, List.flatMap_cons, List.append_assoc]

/-! ### Cut inputs -/

/-- What the decoder makes of an input does not change when more is appended. -/
def Local (view : σ → List τ) (p : Decoder σ ε α) : Prop :=
  ∀ ⦃s a s'⦄, p.run s = .ok (a, s') → ∀ ⦃t more⦄, view t = view s ++ more →
    ∃ t', p.run t = .ok (a, t') ∧ view t' = view s' ++ more

theorem Local.pure (a : α) : Local view (pure a : Decoder σ ε α) := by
  intro s b s' hrun t more ht
  obtain ⟨rfl, rfl⟩ := Prod.mk.inj (Except.ok.inj hrun)
  exact ⟨t, rfl, ht⟩

theorem Local.throw (e : ε) : Local view (throw e : Decoder σ ε α) := fun _ _ _ hrun => nomatch hrun

theorem Local.bind {k : α → Decoder σ ε β} (hp : Local view p) (hk : ∀ a, Local view (k a)) :
    Local view (p >>= k) := by
  intro s b s' hrun t more ht
  obtain ⟨a, u, hpa, hka⟩ := run_bind_eq_ok.mp hrun
  obtain ⟨t₁, hrun₁, ht₁⟩ := hp hpa ht
  obtain ⟨t₂, hrun₂, ht₂⟩ := hk a hka ht₁
  exact ⟨t₂, run_bind_eq_ok.mpr ⟨a, t₁, hrun₁, hrun₂⟩, ht₂⟩

/-- The decoder takes at least `n` tokens. -/
def Takes (view : σ → List τ) (n : ℕ) (p : Decoder σ ε α) : Prop :=
  ∀ ⦃s a s'⦄, p.run s = .ok (a, s') → (view s').length + n ≤ (view s).length

theorem Takes.pure (a : α) : Takes view 0 (pure a : Decoder σ ε α) := by
  intro s b s' hrun
  obtain ⟨rfl, rfl⟩ := Prod.mk.inj (Except.ok.inj hrun)
  exact Nat.le_refl _

theorem Takes.throw (n : ℕ) (e : ε) : Takes view n (throw e : Decoder σ ε α) :=
  fun _ _ _ hrun => nomatch hrun

theorem Takes.bind {m n : ℕ} {k : α → Decoder σ ε β} (hp : Takes view m p)
    (hk : ∀ a, Takes view n (k a)) :
    Takes view (m + n) (p >>= k) := by
  intro s b s' hrun
  obtain ⟨a, t, hpa, hka⟩ := run_bind_eq_ok.mp hrun
  have hfirst := hp hpa
  have hrest := hk a hka
  omega

theorem Takes.mono {m n : ℕ} (hp : Takes view n p) (h : m ≤ n) : Takes view m p := fun _ _ _ hrun =>
  Nat.le_trans (Nat.add_le_add_left h _) (hp hrun)

/-! ### Codecs -/

/-- A decoder of exactly the encodings of the admitted values. -/
structure Codec (view : σ → List τ) (enc : α → List τ) (ok : α → Prop) (p : Decoder σ ε α) :
    Prop where
  inverts : Inverts view enc ok p
  canonical : Canonical view enc ok p

theorem Codec.congr {enc' : α → List τ} {ok' : α → Prop} (hp : Codec view enc ok p)
    (hok : ∀ a, ok' a ↔ ok a) (henc : ∀ a, ok a → enc' a = enc a) : Codec view enc' ok' p := by
  refine ⟨fun a ha s rest hs => ?_, fun s a s' hrun => ?_⟩
  · have ha := (hok a).mp ha
    exact hp.inverts ha (by rw [hs, henc a ha])
  · obtain ⟨ha, hs⟩ := hp.canonical hrun
    exact ⟨(hok a).mpr ha, by rw [hs, henc a ha]⟩

theorem Codec.pure {c : α} (h : ∀ a, ok a ↔ a = c) :
    Codec view (fun _ => []) ok (pure c : Decoder σ ε α) :=
  ⟨.pure fun a => (h a).mp, .pure ((h c).mpr rfl)⟩

theorem Codec.bind {okc : γ → Prop} {f : γ → α} {encRest : γ → List τ} {k : α → Decoder σ ε γ}
    (hp : Codec view enc ok p) (hf : ∀ c, okc c → ok (f c))
    (hk : ∀ a, ok a → Codec view encRest (fun c => okc c ∧ f c = a) (k a)) :
    Codec view (fun c => enc (f c) ++ encRest c) okc (p >>= k) :=
  ⟨hp.inverts.bind hf fun a ha => (hk a ha).inverts, hp.canonical.bind fun a ha =>
    (hk a ha).canonical⟩

theorem Codec.throw {e : ε} (h : ∀ a, ¬ ok a) : Codec view enc ok (throw e : Decoder σ ε α) :=
  ⟨fun a ha => absurd ha (h a), fun _ _ _ hrun => nomatch hrun⟩

/-- The last field of a record. -/
theorem Codec.last {okc : γ → Prop} {f : γ → α} {g : α → γ} (hp : Codec view enc ok p)
    (hf : ∀ c, okc c → ok (f c)) (hg : ∀ a, ok a → ∀ c, okc c ∧ f c = a ↔ c = g a) :
    Codec view (fun c => enc (f c)) okc (p >>= fun a => Pure.pure (g a)) :=
  (hp.bind hf fun a ha => Codec.pure (hg a ha)).congr (fun _ => Iff.rfl) fun _ _ =>
    (List.append_nil _).symm

theorem Codec.times (hp : Codec view enc ok p) (n : ℕ) :
    Codec view (fun as => as.flatMap enc) (fun as => as.length = n ∧ ∀ a ∈ as, ok a) (times p n) :=
  ⟨hp.inverts.times n, hp.canonical.times n⟩

/-! ### Failures -/

/-- The decoder never ends in this failure. -/
def Avoids (p : Decoder σ ε α) (e : ε) : Prop := ∀ s, p.run s ≠ .error e

theorem Avoids.pure (a : α) (e : ε) : Avoids (pure a : Decoder σ ε α) e := fun _ h => nomatch h

theorem Avoids.throw {e e' : ε} (h : e' ≠ e) : Avoids (throw e' : Decoder σ ε α) e :=
  fun _ hrun => h (Except.error.inj hrun)

theorem Avoids.bind {e : ε} {k : α → Decoder σ ε β} (hp : Avoids p e) (hk : ∀ a, Avoids (k a) e) :
    Avoids (p >>= k) e := by
  intro s h
  rw [run_bind] at h
  cases hrun : p.run s with
  | error e' =>
    rw [hrun] at h
    obtain rfl : e' = e := Except.error.inj h
    exact hp s hrun
  | ok r =>
    rw [hrun] at h
    exact hk r.1 r.2 h

theorem Avoids.times {e : ε} (hp : Avoids p e) (n : ℕ) : Avoids (times p n) e := by
  induction n with
  | zero => exact Avoids.pure [] e
  | succ n ih => exact hp.bind fun a => ih.bind fun as => Avoids.pure (a :: as) e

/-! ### Values -/

/-- Every value the decoder ends with has the property. -/
def Yields (p : Decoder σ ε α) (ok : α → Prop) : Prop := ∀ ⦃s a s'⦄, p.run s = .ok (a, s') → ok a

theorem Yields.pure {a : α} (h : ok a) : Yields (pure a : Decoder σ ε α) ok := by
  intro s b s' hrun
  obtain ⟨rfl, -⟩ := Prod.mk.inj (Except.ok.inj hrun)
  exact h

theorem Yields.throw (e : ε) : Yields (throw e : Decoder σ ε α) ok := fun _ _ _ hrun => nomatch hrun

theorem Yields.bind {ok' : β → Prop} {k : α → Decoder σ ε β} (hp : Yields p ok)
    (hk : ∀ a, ok a → Yields (k a) ok') :
    Yields (p >>= k) ok' := by
  intro s b s' hrun
  obtain ⟨a, t, hpa, hka⟩ := run_bind_eq_ok.mp hrun
  exact hk a (hp hpa) hka

theorem Yields.times (hp : Yields p ok) (n : ℕ) :
    Yields (times p n) fun as => as.length = n ∧ ∀ a ∈ as, ok a := by
  induction n with
  | zero => exact .pure ⟨rfl, fun a ha => absurd ha List.not_mem_nil⟩
  | succ n ih =>
    exact hp.bind fun a ha => ih.bind fun as has =>
      .pure ⟨congrArg (· + 1) has.1, List.forall_mem_cons.mpr ⟨ha, has.2⟩⟩

/-! ### Total runs -/

/-- From a state with the invariant the run ends with a value that has the
property, in a state with the invariant. -/
def Ensures (inv : σ → Prop) (p : Decoder σ ε α) (post : α → Prop) : Prop :=
  ∀ ⦃s⦄, inv s → ∃ a s', p.run s = .ok (a, s') ∧ inv s' ∧ post a

/-- A computation without state. -/
def ofResult (x : Except ε α) : Decoder σ ε α := fun s => x.map fun a => (a, s)

variable {inv : σ → Prop} {post : α → Prop}

theorem Ensures.pure {a : α} (h : post a) : Ensures inv (pure a : Decoder σ ε α) post :=
  fun s hs => ⟨a, s, rfl, hs, h⟩

theorem Ensures.ofResult {x : Except ε α} {a : α} (hx : x = .ok a) (h : post a) :
    Ensures inv (ofResult x) post :=
  fun s hs => ⟨a, s, by rw [hx]; rfl, hs, h⟩

theorem Ensures.ofResult_eq {x : Except ε α} {a : α} (hx : x = .ok a) :
    Ensures inv (Decoder.ofResult x) (· = a) :=
  .ofResult hx rfl

theorem Ensures.bind {post' : β → Prop} {k : α → Decoder σ ε β} (hp : Ensures inv p post)
    (hk : ∀ a, post a → Ensures inv (k a) post') : Ensures inv (p >>= k) post' := by
  intro s hs
  obtain ⟨a, t, hrun, ht, ha⟩ := hp hs
  obtain ⟨b, s', hrest, hs', hb⟩ := hk a ha ht
  exact ⟨b, s', run_bind_eq_ok.mpr ⟨a, t, hrun, hrest⟩, hs', hb⟩

/-! ### Whole strings -/

section

variable {τ ε α : Type u} {enc : α → List τ} {ok : α → Prop} {p : Decoder (List τ) ε α} {a b : α}
    {bs : List τ}

/-- Decode a whole string; what is left over is a failure. -/
def whole (trailing : ε) (p : Decoder (List τ) ε α) (bs : List τ) : Except ε α :=
  (p.run bs).bind fun r => if r.2.isEmpty then .ok r.1 else .error trailing

theorem whole_bind {β : Type u} (trailing : ε) (p : Decoder (List τ) ε α)
    (k : α → Decoder (List τ) ε β) (bs : List τ) :
    whole trailing (p >>= k) bs = (p.run bs).bind fun r => whole trailing (k r.1) r.2 := by
  unfold whole
  rw [run_bind]
  cases p.run bs with
  | error e => rfl
  | ok r => rfl

/-- `dec` undoes `enc` on the admitted values, and accepts nothing but their
encodings; in particular nothing that is cut short or extended. -/
structure Exact (enc : α → List τ) (ok : α → Prop) (dec : List τ → Except ε α) : Prop where
  decodes : ∀ a, ok a → dec (enc a) = .ok a
  encodes : ∀ bs a, dec bs = .ok a → ok a ∧ enc a = bs
  cut : ∀ a bs, ok a → bs <+: enc a → bs ≠ enc a → ∃ e, dec bs = .error e
  padded : ∀ a bs, ok a → enc a <+: bs → bs ≠ enc a → ∃ e, dec bs = .error e

/-- **No encoding begins another.** -/
theorem Codec.prefix_free (hp : Codec id enc ok p) (ha : ok a) (hb : ok b) (h : enc a <+: enc b) :
    a = b := by
  obtain ⟨more, hmore⟩ := h
  obtain ⟨_, hra, -⟩ := hp.inverts ha (s := enc b) hmore.symm
  obtain ⟨_, hrb, -⟩ := hp.inverts hb (s := enc b) (List.append_nil _).symm
  rw [hrb] at hra
  exact (Prod.mk.inj (Except.ok.inj hra)).1.symm

theorem whole_eq_ok {trailing : ε} : whole trailing p bs = .ok a ↔ p.run bs = .ok (a, []) := by
  unfold whole
  rw [bind_eq_ok]
  constructor
  · rintro ⟨⟨c, rest⟩, hrun, h⟩
    cases rest with
    | nil => exact Except.ok.inj h ▸ hrun
    | cons t rest => exact nomatch h
  · exact fun h => ⟨_, h, rfl⟩

theorem Codec.exact (hp : Codec id enc ok p) (trailing : ε) : Exact enc ok (whole trailing p) := by
  have hdecodes : ∀ a, ok a → whole trailing p (enc a) = .ok a := fun a ha => by
    obtain ⟨rest, hrun, rfl⟩ := hp.inverts ha (s := enc a) (List.append_nil _).symm
    exact whole_eq_ok.mpr hrun
  have hencodes : ∀ bs a, whole trailing p bs = .ok a → ok a ∧ enc a = bs := fun bs a h => by
    obtain ⟨hok, hbs⟩ := hp.canonical (whole_eq_ok.mp h)
    exact ⟨hok, (hbs.trans (List.append_nil _)).symm⟩
  have hrejects : ∀ bs, (∀ b, ok b → enc b ≠ bs) → ∃ e, whole trailing p bs = .error e :=
    fun bs hno => by
    cases h : whole trailing p bs with
    | error e => exact ⟨e, rfl⟩
    | ok b => exact absurd (hencodes bs b h).2 (hno b (hencodes bs b h).1)
  refine ⟨hdecodes, hencodes, fun a bs ha hinit hne => hrejects bs ?_, fun a bs ha hinit hne =>
    hrejects bs ?_⟩
  · rintro b hb rfl
    exact hne (congrArg enc (hp.prefix_free hb ha hinit))
  · rintro b hb rfl
    exact hne (congrArg enc (hp.prefix_free ha hb hinit)).symm

end

end Decoder
