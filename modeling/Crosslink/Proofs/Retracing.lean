import Crosslink.Proofs.Bodies

/-!
# Classes of what is left of a source

When some groups of a method are taken out of a source, or put shorter, the classes of what is left are
those of the source, but for that method. The walks over the longer source tell where those over the
shorter one go: up to the place by the tokens before it, which are the same in both, and from there on as
they do over the longer source after it.

* §1 `unlift`, the tokens that are left, and `Inserted.copied_back`.
* §2 `mem_headersFrom`, a header before the place.
* §3 `exists_methods_left`, the methods of a class.
* §4 `exists_classes_left`, the classes of both sources.
-/

namespace Crosslink.Source

open TokenSequence

variable {k n : Nat} {block : Array Token} {a m b source out : Text} {l l' : TokenSequence}

/-! ## §1 Tokens that are left -/

/-- Where a token stands when the `n` tokens from the index `k` on are taken out, or where the next one that
is left does. -/
def unlift (k n q : Nat) : Nat := if q < k then q else max k (q - n)

theorem unlift_of_lt {q : Nat} (h : q < k) : unlift k n q = q := if_pos h

theorem unlift_of_le {q : Nat} (h : k + n ≤ q) : unlift k n q = q - n := by
  rw [unlift, if_neg (by omega)]
  omega

theorem unlift_lift (k n q : Nat) : unlift k n (lift k n q) = q := by
  by_cases h : q < k
  · rw [lift_of_lt h, unlift_of_lt h]
  · rw [lift_of_le (by omega), unlift_of_le (by omega), Nat.add_sub_cancel]

/-- What stands before the place stays where it is. -/
theorem Inserted.copied_back (h : Inserted k n block a m l' l) :
    Copied (unlift k n) 0 k 0 0 (a ++ (m ++ b)) (a ++ b) l l' where
  size := by
    have := h.le_size
    have := h.size
    omega
  token i _ hi := by
    have hsame := (h.copied_before (b := b)).token i (Nat.zero_le i) hi
    rw [Nat.add_zero] at hsame ⊢
    rw [hsame]
    cases l'.tokens[i]? with
    | none => rfl
    | some t =>
      refine congrArg some ?_
      rw [Token.carried, Token.carried, Option.map_map]
      have hid : unlift k n ∘ lift k n = id := funext (unlift_lift k n)
      rw [hid, Option.map_id]
      rfl
  inside q _ hq := by rw [unlift_of_lt hq, Nat.add_zero]
  below q hq := by omega
  above q hq := by
    rw [unlift, if_neg (by omega)]
    omega
  text i j hi hij hj := ((h.copied_before (b := b)).text i j hi hij hj).symm

/-! ## §2 Headers -/

section Headers

variable {f : Nat → Nat} {x i : Nat} {s s' : Text} {H : ClassHeader}

/-- A class whose body opens in a stretch from the beginning on, and closes after it, is found again. -/
theorem TokenSequence.Copied.mem_headersFrom (h : Copied f 0 x 0 0 s s' l l') (hn : l.Nested)
    (hsize : x ≤ l'.tokens.size) (hH : H ∈ l.headersFrom i) (hbody : H.body < x) :
    H.carry f ∈ l'.headersFrom i := by
  fun_induction headersFrom l i with
  | case1 i htok => cases hH
  | case2 i t ht hr => cases hH
  | case3 i t ht r hr ih =>
    have hi : i + 2 ≤ H.body := by
      obtain hH | hH := List.mem_append.mp hH
      · obtain ⟨hfirst, hstands, -⟩ := stands_of_classTurn hn hr (Option.mem_toList.mp hH)
        exact hfirst ▸ hstands.first
      · obtain ⟨hfirst, hstands⟩ := stands_of_mem hn hH
        have := lt_classTurn hr
        have := hstands.first
        omega
    have ht' := h.token i (Nat.zero_le i) (by omega)
    rw [Nat.add_zero, ht, Option.map_some] at ht'
    have hlater : ∀ H' ∈ r.1, H'.body < x := by
      intro H' hH'
      obtain hH | hH := List.mem_append.mp hH
      · obtain rfl := Option.some.inj (hH'.symm.trans (Option.mem_toList.mp hH))
        exact hbody
      · obtain ⟨-, hstands', hnext⟩ := stands_of_classTurn hn hr hH'
        obtain ⟨hfirst, hstands⟩ := stands_of_mem hn hH
        have := hstands.first
        have := hstands'.lt
        omega
    have hnone : r.1 = none → H ∈ l.headersFrom r.2 := fun hnone => by
      rw [hnone] at hH
      exact hH
    have hle : H ∈ l.headersFrom r.2 → r.2 < x := fun hmem => by
      obtain ⟨hfirst, hstands⟩ := stands_of_mem hn hmem
      have := hstands.first
      omega
    obtain ⟨r', hr', hfound, hgo, hclose⟩ := h.classTurn (.inr ⟨rfl, rfl⟩) (by omega)
      (h.token (i + 1) (Nat.zero_le _) (by omega)) hr hlater (fun hn => (hle (hnone hn)).le) hsize
    rw [Nat.add_zero] at hr'
    rw [headersFrom_of_turn ht' hr', List.mem_append]
    obtain hH | hH := List.mem_append.mp hH
    · refine .inl (Option.mem_toList.mpr ?_)
      rw [hfound, Option.mem_toList.mp hH]
      rfl
    · refine .inr ?_
      have hnext : r'.2 = r.2 := by
        cases hfirst : r.1 with
        | none => exact hgo hfirst
        | some H' =>
          obtain ⟨hfirst', hstands', hnext⟩ := stands_of_classTurn hn hr hfirst
          have := hle hH
          have := hstands'.first
          have := hstands'.lt
          rw [hclose H' hfirst, h.inside H'.close (Nat.zero_le _) (by omega), hnext]
          omega
      rw [hnext]
      exact ih hH

end Headers

/-! ## §3 The methods of a class -/

section Methods

variable {place x y d w : Nat} {f f' : Nat → Nat} {H : ClassHeader} {b' : Nat} {us : List Turn}
  {xs₁ xs₂ : List (Growth × Nat)} {head : MethodHead} {ms ms' : List Method} {m : Method}
  {gs gs' : List AttributeGroup}

/-- The turns of a method that have been moved on. -/
theorem exists_turns_of_shift {L us₂ : List Turn} {next : Nat}
    (h : L.map (Turn.shift d w) = growTurns xs₂ ++ .method head next :: us₂) :
    ∃ xs head' next' us', L = growTurns xs ++ .method head' next' :: us' ∧
      xs₂ = xs.map (fun x => (x.1.shift d w, x.2 + d)) ∧ head = head'.shift w ∧
      us₂ = us'.map (Turn.shift d w) := by
  induction xs₂ generalizing L with
  | nil =>
    obtain ⟨u, us', rfl, hu, rfl⟩ := List.map_eq_cons_iff.mp h
    cases u with
    | method head' next' =>
      obtain ⟨rfl, -⟩ := Turn.method.inj hu
      exact ⟨[], head', next', us', rfl, rfl, rfl, rfl⟩
    | grow x next => cases hu
    | reset stop next => cases hu
  | cons x xs₂ ih =>
    obtain ⟨u, L, rfl, hu, hrest⟩ := List.map_eq_cons_iff.mp h
    obtain ⟨xs, head', next', us', rfl, rfl, hhead, hus⟩ := ih hrest
    cases u with
    | grow x' next₁ =>
      obtain ⟨hx, hnext⟩ := Turn.grow.inj hu
      exact ⟨(x', next₁) :: xs, head', next', us', rfl,
        congrArg (· :: _) (Prod.ext hx.symm hnext.symm), hhead, hus⟩
    | method head' next' => cases hu
    | reset stop next => cases hu

/-- When some groups of a method are replaced by others, the walk over the other source makes the methods
that this one makes, the one method with the other groups. -/
theorem exists_methods_left (h : Revised place f x y d w out source l' l)
    (hback : Copied f' 0 x 0 0 source out l l') (hsilent : Copied.Silent 0 x 0 l l') (hH : H.Stands l')
    (hbody : H.body < x)
    (hseat : Seat l source l.docBetween (H.close + d) (H.body + 1) (l.stopAt H.body) ms m ms' us x b'
      xs₁ (turnsAt gs ++ xs₂) head)
    (hgs : TokenSequence.Path l source (H.close + d) x (growTurns (turnsAt gs)) (y + d))
    (hgs' : TokenSequence.Path l' out H.close x (growTurns (turnsAt gs')) y) :
    ∃ ms₁ ms₂ xs head', (H.read l' out).methods = ms₁ ++
        (growAll (.fresh b') (xs₁ ++ (turnsAt gs' ++ xs))).method l'.docBetween head' :: ms₂ ∧
      List.Forall₂ (Method.Again out source) ms₁ ms ∧ List.Forall₂ (Method.Again out source) ms₂ ms' ∧
      xs₂ = xs.map (fun x => (x.1.shift d w, x.2 + d)) ∧ head = head'.shift w := by
  have hxy := hgs'.le
  have hbodyx := hseat.path.le
  obtain ⟨next, us₂, hrest, hms'⟩ := hseat.rest
  rw [hgs.turnsFrom_eq, growTurns_append, List.append_assoc] at hrest
  replace hrest := List.append_cancel_left hrest
  rw [h.turnsFrom_after hH (Nat.le_refl y) (by omega)] at hrest
  obtain ⟨xs, head', next', us', hleft, hxs, rfl, rfl⟩ := exists_turns_of_shift hrest
  have hclose : y < H.close := by
    cases xs with
    | nil => exact (exists_turn hleft).choose_spec.1
    | cons x xs => exact (exists_turn hleft).choose_spec.1
  -- the walk up to the groups, and the groups
  have hpath := hseat.path.copied hback h.nested' hsilent (Nat.zero_le _) (Nat.le_refl x)
    (show ∀ b, b < H.close + d → b < x → b + 0 < H.close by omega)
  rw [Turn.shift_zero, List.map_id, Nat.add_zero, Nat.add_zero] at hpath
  have hturns := (hpath.append hgs').turnsFrom_eq
  rw [hleft, List.append_assoc, ← List.append_assoc (growTurns (turnsAt gs')), ← growTurns_append] at hturns
  have hstop : l'.stopAt H.body = l.stopAt H.body := by
    have hstop := hback.stopAt (Nat.zero_le H.body) hbody
    rwa [Nat.add_zero, Nat.add_zero] at hstop
  refine ⟨playback l'.docBetween (.fresh (l.stopAt H.body)) us, playback l'.docBetween (.fresh head'.stop) us',
    xs, head', ?_, ?_, ?_, hxs, rfl⟩
  · show l'.methodsFrom out H.close (.fresh (l'.stopAt H.body)) (H.body + 1) = _
    rw [methodsFrom_eq, hturns, hstop, playback_append, hseat.pending, playback_growTurns, ← growAll_append]
    rfl
  · rw [← hseat.before]
    refine Source.again_before h.docs _ (by simp [Pending.fresh]) fun u hu s hs => ?_
    obtain ⟨j, t, -, hj, ht, hturn⟩ := hpath.exists_token hu
    have hearly := h.early j t hj ht
    have htoken := token_lt h.read ht
    rw [place_of_turn h.nested ht hturn s hs]
    omega
  · rw [← hms']
    have hturn : ∀ u ∈ .method head' next' :: us', ∀ s ∈ u.boundary, place ≤ s := fun u hu =>
      h.place_le_boundary hH (Nat.le_refl y) (by omega) (hleft ▸ List.mem_append_right _ hu)
    exact Source.again_after h.docs d (.fresh head'.stop) (hturn _ List.mem_cons_self _ rfl) fun u hu =>
      hturn u (List.mem_cons_of_mem _ hu)

end Methods

/-! ## §4 The classes of both sources -/

section Classes

variable {place x y w : Nat} {H : ClassHeader} {Hs₁ Hs₂ : List ClassHeader} {b' : Nat} {us : List Turn}
  {xs₁ xs₂ : List (Growth × Nat)} {head : MethodHead} {ms ms' : List Method} {m : Method}
  {gs gs' : List AttributeGroup}

/-- A header that is found again in the longer source, and that stands around the place, is found in the
shorter one. -/
theorem exists_header_left (h : Around (lift k n) x y n w out source l' l)
    (hback : Copied (unlift k n) 0 k 0 0 source out l l') (hheaders : l.headersFrom 0 = Hs₁ ++ H :: Hs₂)
    (hx : x ≤ k) (hbody : H.body < x) (hclose : y + n ≤ H.close) (hk : k ≤ y) :
    ∃ Ks₁ K Ks₂, l'.headersFrom 0 = Ks₁ ++ K :: Ks₂ ∧ Hs₁ = Ks₁.map (ClassHeader.carry (lift k n)) ∧
      H = K.carry (lift k n) ∧ Hs₂ = Ks₂.map (ClassHeader.carry (lift k n)) ∧ K.body = H.body ∧
      K.close + n = H.close := by
  have hsize : k ≤ l'.tokens.size := by
    have := h.after.size
    have := hback.size
    have := h.nested'.lt_size (stands_of_mem h.nested' (hheaders ▸ show H ∈ Hs₁ ++ H :: Hs₂ by simp)).2.partner
    have := h.size
    omega
  have hmem := hback.mem_headersFrom h.nested' hsize
    (hheaders ▸ show H ∈ Hs₁ ++ H :: Hs₂ by simp) (by omega)
  have hcarried := h.headersFrom_carry hmem
    (show unlift k n H.body < x by rw [unlift_of_lt (by omega)]; exact hbody)
    (show y ≤ unlift k n H.close by rw [unlift_of_le (by omega)]; omega)
  rw [hheaders] at hcarried
  obtain ⟨Ks₁, Ks, hKs, hHs₁, hrest⟩ := List.map_eq_append_iff.mp hcarried.symm
  obtain ⟨K, Ks₂, rfl, hK, hHs₂⟩ := List.map_eq_cons_iff.mp hrest
  refine ⟨Ks₁, K, Ks₂, hKs, hHs₁.symm, hK.symm, hHs₂.symm, ?_, ?_⟩
  · have hsame : lift k n K.body = H.body := congrArg ClassHeader.body hK
    unfold lift at hsame
    split at hsame <;> omega
  · have hsame : lift k n K.close = H.close := congrArg ClassHeader.close hK
    unfold lift at hsame
    split at hsame <;> omega

/-- When some groups of a method are replaced by others, the classes of the shorter source are those of the
longer one, but for the groups. -/
theorem exists_classes_left (h : Revised place (lift k n) x y n w out source l' l)
    (hback : Copied (unlift k n) 0 k 0 0 source out l l') (hsilent : Copied.Silent 0 x 0 l l')
    (hheaders : l.headersFrom 0 = Hs₁ ++ H :: Hs₂) (hx : x ≤ k) (hk : k ≤ y) (hclose : y + n ≤ H.close)
    (hseat : Seat l source l.docBetween H.close (H.body + 1) (l.stopAt H.body) ms m ms' us x b'
      xs₁ (turnsAt gs ++ xs₂) head)
    (hgs : TokenSequence.Path l source H.close x (growTurns (turnsAt gs)) (y + n))
    (hgs' : TokenSequence.Path l' out (H.close - n) x (growTurns (turnsAt gs')) y) :
    ∃ C₁ c C₂ ms₁ ms₂ xs head', l'.classes out = C₁ ++ c :: C₂ ∧
      List.Forall₂ (DeclaredClass.Again out source) C₁ (Hs₁.map (ClassHeader.read l source)) ∧
      List.Forall₂ (DeclaredClass.Again out source) C₂ (Hs₂.map (ClassHeader.read l source)) ∧
      c.name = H.name ∧ c.methods = ms₁ ++
        (growAll (.fresh b') (xs₁ ++ (turnsAt gs' ++ xs))).method l'.docBetween head' :: ms₂ ∧
      List.Forall₂ (Method.Again out source) ms₁ ms ∧ List.Forall₂ (Method.Again out source) ms₂ ms' ∧
      xs₂ = xs.map (fun x => (x.1.shift n w, x.2 + n)) ∧ head = head'.shift w := by
  have hbody := hseat.path.le
  obtain ⟨Ks₁, K, Ks₂, hKs, rfl, hK, rfl, hKbody, hKclose⟩ :=
    exists_header_left h.toAround hback hheaders hx (by omega) hclose hk
  have hmem : ∀ K' ∈ Ks₁ ++ K :: Ks₂, K'.Stands l' := fun K' hK' =>
    (stands_of_mem h.nested (hKs ▸ hK')).2
  have hstands := hmem K (by simp)
  have horder := headersFrom_order h.nested 0
  rw [hKs] at horder
  obtain ⟨-, horder₂, horder₁⟩ := List.pairwise_append.mp horder
  have horder₂ := (List.pairwise_cons.mp horder₂).1
  rw [← hKclose, Nat.add_sub_cancel] at hgs'
  rw [← hKclose, ← hKbody] at hseat
  rw [← hKclose] at hgs
  obtain ⟨ms₁, ms₂, xs, head', hmethods, hms₁, hms₂, hxs, hhead⟩ := exists_methods_left h
    (hback.mono (Nat.le_refl 0) hx (fun q hq => by omega) fun q hq => by unfold unlift; split <;> omega)
    hsilent hstands (by omega) hseat hgs hgs'
  refine ⟨_, _, _, ms₁, ms₂, xs, head', by rw [classes_eq, hKs, List.map_append, List.map_cons], ?_, ?_,
    congrArg ClassHeader.name hK.symm, hmethods, hms₁, hms₂, hxs, hhead⟩
  · rw [List.map_map, List.forall₂_map_left_iff, List.forall₂_map_right_iff, List.forall₂_same]
    intro K' hK'
    have hst := hmem K' (by simp [hK'])
    have := horder₁ K' hK' K (by simp)
    have := hstands.first
    exact h.again_before hst (by omega)
  · rw [List.map_map, List.forall₂_map_left_iff, List.forall₂_map_right_iff, List.forall₂_same]
    intro K' hK'
    have hst := hmem K' (by simp [hK'])
    have := horder₂ K' hK'
    have := hst.first
    exact h.again_after hst (by omega)

end Classes

end Crosslink.Source
