import LibtorrentSN.Bencode.Tree

/-!
# Entries in a row

An entry can be read from a buffer that goes on behind it, as the payload of a message does, and entries that are
written one after the other can be told apart.
-/

namespace LibtorrentSN

namespace Bencode

namespace Entry

variable {e e' : Entry} {rest rest' : List UInt8}

/-- An entry is read from the front of a longer buffer, and the node knows where it ends. -/
theorem bencode_bdecode_append (e : Entry) (rest : List UInt8) (depthLimit tokenLimit : ℤ) (h : e.Plain)
    (hdepth : (e.depth : ℤ) < depthLimit) (htokens : (e.tokenCount : ℤ) ≤ tokenLimit)
    (hlen : ((bencode e).1 ++ rest).length ≤ maxOffset) :
    (bdecode ((bencode e).1 ++ rest) depthLimit tokenLimit).error = .noError ∧
    ofNode (bdecode ((bencode e).1 ++ rest) depthLimit tokenLimit).node = some e ∧
    (bdecode ((bencode e).1 ++ rest) depthLimit tokenLimit).node.dataSection = (bencode e).1 := by
  rw [bencode_eq h] at hlen ⊢
  rw [bdecode_of_begins hlen (value_begins h hlen hdepth htokens)]
  exact ⟨rfl, ofNode_finish h hlen tokenLimit, (finish_isNode hlen rfl).dataSection_eq⟩

/-- A number before a list. -/
theorem bencode_bdecode_append_int : ofNode (bdecode ((bencode (.int 42)).1 ++ [108, 101]) 100 2000000).node =
    some (.int 42) :=
  (bencode_bdecode_append (.int 42) [108, 101] 100 2000000 (by constructor <;> decide) (by decide) (by decide)
    (by decide +kernel)).2.1

theorem eq_of_encode_append (h : e.Plain) (h' : e'.Plain) (hlen : (e.value.encode ++ rest).length ≤ maxOffset)
    (heq : e.value.encode ++ rest = e'.value.encode ++ rest') : e = e' := by
  have hbegins := value_begins h' (heq ▸ hlen) (Int.lt_succ_self _) le_rfl
  rw [← heq] at hbegins
  have hvalue := Begins.unique hlen (value_begins h hlen (Int.lt_succ_self _) le_rfl) hbegins
  have hread := ofNode_finish h hlen 0
  rw [heq, hvalue, ofNode_finish h' (heq ▸ hlen) 0] at hread
  exact (Option.some.inj hread).symm

theorem encode_ne_nil (v : Value) : v.encode ≠ [] := by
  cases v <;> simp [Value.encode]

theorem flatMap_bencode_ne_nil (h : e.Plain) (es : List Entry) :
    ((e :: es).flatMap fun e => (bencode e).1) ≠ [] := by
  rw [List.flatMap_cons, bencode_eq h]
  exact List.append_ne_nil_of_left_ne_nil (encode_ne_nil _) _

/-- Entries that are written one after the other can be told apart. -/
theorem flatMap_bencode_inj (es es' : List Entry) (h : ∀ e ∈ es, e.Plain) (h' : ∀ e ∈ es', e.Plain)
    (hlen : (es.flatMap fun e => (bencode e).1).length ≤ maxOffset)
    (heq : (es.flatMap fun e => (bencode e).1) = es'.flatMap fun e => (bencode e).1) : es = es' := by
  induction es generalizing es' with
  | nil =>
    cases es' with
    | nil => rfl
    | cons e' es' => exact absurd heq.symm (flatMap_bencode_ne_nil (h' e' List.mem_cons_self) es')
  | cons e es ih =>
    obtain ⟨he, hes⟩ := List.forall_mem_cons.mp h
    cases es' with
    | nil => exact absurd heq (flatMap_bencode_ne_nil he es)
    | cons e' es' =>
      obtain ⟨he', hes'⟩ := List.forall_mem_cons.mp h'
      rw [List.flatMap_cons, List.flatMap_cons, bencode_eq he, bencode_eq he'] at heq
      rw [List.flatMap_cons, bencode_eq he] at hlen
      obtain rfl := eq_of_encode_append he he' hlen heq
      rw [List.length_append] at hlen
      exact congrArg (e :: ·) (ih es' hes hes' ((Nat.le_add_left _ _).trans hlen) (List.append_cancel_left heq))

theorem flatMap_bencode_inj_two : [Entry.int 4, .int 2] = [.int 4, .int 2] :=
  flatMap_bencode_inj _ _ (by simp [Plain]) (by simp [Plain]) (by decide +kernel) rfl

end Entry

end Bencode

end LibtorrentSN
