import Lighttpd.FcgiRequest

/-!
# The parameters of a FastCGI request

`fcgi_env_add` appends a name and a value with their lengths, as long as the buffer is short enough
for one record. Decoding the buffer gives the variables that it took, in order
(`fcgiEnv_decodePairs`).
-/

namespace Lighttpd

open CString

/-- The variables that `fcgi_env_add` takes, call after call. -/
def fcgiTaken : Bytes → List (Option Bytes × Option Bytes) → List (Bytes × Bytes)
  | _, [] => []
  | env, var :: vars =>
    let added := fcgiEnvAdd env var.1 var.2
    if added.2 then (var.1.getD [], var.2.getD []) :: fcgiTaken added.1 vars
    else fcgiTaken added.1 vars

/-- The content length in a header. -/
def headerContentLength (header : Bytes) : ℕ :=
  (header.getD 4 0).toNat * 256 + (header.getD 5 0).toNat

theorem fcgiLenEnc_eq {len : ℕ} (h : len < 2 ^ 31) : fcgiLenEnc len = FastCgi.encodeLength len := by
  unfold fcgiLenEnc FastCgi.encodeLength
  by_cases hlen : len > 127
  · rw [if_pos hlen, if_neg (by omega)]
    have hhigh : len >>> 24 &&& 0xff = len / 2 ^ 24 := by
      rw [Nat.shiftRight_eq_div_pow, show 0xff = 2 ^ 8 - 1 from rfl,
        Nat.and_two_pow_sub_one_eq_mod]
      omega
    have hor : len / 2 ^ 24 ||| 0x80 = len / 2 ^ 24 + 128 := by
      have hadd := Nat.two_pow_add_eq_or_of_lt (show len / 2 ^ 24 < 2 ^ 7 by omega) 1
      rw [Nat.or_comm, Nat.add_comm]
      exact hadd.symm
    rw [hhigh, hor]
    simp only [ofNat_and_255, Nat.shiftRight_eq_div_pow]
  · rw [if_neg hlen, if_pos (by omega), ofNat_and_255]

theorem fcgiEnvAdd_cases (env : Bytes) (key val : Option Bytes) :
    fcgiEnvAdd env key val = (env, false) ∨
      ∃ k v, key = some k ∧ val = some v ∧ FastCgi.ShortPair (k, v) ∧
        fcgiEnvAdd env key val = (env ++ FastCgi.encodePair (k, v), true) := by
  rcases key with _ | k
  · exact .inl rfl
  rcases val with _ | v
  · exact .inl rfl
  by_cases hroom : env.length + (k.length + v.length + (if k.length > 127 then 4 else 1) +
      (if v.length > 127 then 4 else 1)) ≥ FCGI_MAX_LENGTH
  · exact .inl (by simp only [fcgiEnvAdd, if_pos hroom])
  · have hlt := Nat.lt_of_not_ge hroom
    have hmax : FCGI_MAX_LENGTH < 2 ^ 31 := by decide
    have hk : k.length < 2 ^ 31 := by omega
    have hv : v.length < 2 ^ 31 := by omega
    refine .inr ⟨k, v, rfl, rfl, ⟨hk, hv⟩, ?_⟩
    simp only [fcgiEnvAdd, if_neg hroom, fcgiLenEnc_eq hk, fcgiLenEnc_eq hv, FastCgi.encodePair,
      List.append_assoc]

theorem fcgiEnv_eq (vars : List (Option Bytes × Option Bytes)) (env : Bytes) :
    (fcgiEnv env vars).1 = env ++ FastCgi.encodePairs (fcgiTaken env vars) ∧
      ∀ p ∈ fcgiTaken env vars, FastCgi.ShortPair p := by
  induction vars generalizing env with
  | nil => exact ⟨(List.append_nil env).symm, by simp [fcgiTaken]⟩
  | cons var vars ih =>
    obtain ⟨key, val⟩ := var
    rcases fcgiEnvAdd_cases env key val with hadd | ⟨k, v, rfl, rfl, hshort, hadd⟩
    · simp only [fcgiEnv, fcgiTaken, hadd, Bool.false_eq_true, if_false]
      exact ih env
    · simp only [fcgiEnv, fcgiTaken, hadd, if_true, Option.getD_some]
      obtain ⟨heq, hall⟩ := ih (env ++ FastCgi.encodePair (k, v))
      refine ⟨?_, List.forall_mem_cons.mpr ⟨hshort, hall⟩⟩
      rw [heq, List.append_assoc]
      rfl

/-- The header of a record announces the length that it is given. -/
theorem headerContentLength_fcgiHeader (type padding : UInt8) (requestId : ℕ) {len : ℕ}
    (h : len ≤ FCGI_MAX_LENGTH) :
    ∃ header, fcgiHeader type requestId len padding = some header ∧
      headerContentLength header = len := by
  refine ⟨_, by rw [fcgiHeader, if_pos h], ?_⟩
  have hmax : len ≤ 0xffff := h
  simp only [headerContentLength, List.getD_cons_succ, List.getD_cons_zero, ofNat_and_255,
    Nat.shiftRight_eq_div_pow, UInt8.toNat_ofNat']
  omega

/-- Decoding the buffer gives the variables that were taken; a call that fails leaves the buffer as
it is, and the header announces its whole length. -/
theorem fcgiEnv_decodePairs (vars : List (Option Bytes × Option Bytes)) (type padding : UInt8)
    (requestId : ℕ) :
    FastCgi.decodePairs (fcgiEnv [] vars).1 = some (fcgiTaken [] vars) ∧
      (∀ env key val, (fcgiEnvAdd env key val).2 = false → (fcgiEnvAdd env key val).1 = env) ∧
        (fcgiEnv [] vars).1.length < FCGI_MAX_LENGTH ∧
          ∃ header, fcgiHeader type requestId (fcgiEnv [] vars).1.length padding = some header ∧
            headerContentLength header = (fcgiEnv [] vars).1.length := by
  obtain ⟨heq, hshort⟩ := fcgiEnv_eq vars []
  have hlt : (fcgiEnv [] vars).1.length < FCGI_MAX_LENGTH := length_fcgiEnv vars (by decide)
  refine ⟨?_, fun env key val hfails => ?_, hlt, headerContentLength_fcgiHeader _ _ _ hlt.le⟩
  · rw [heq, List.nil_append]
    exact FastCgi.decodePairs_encodePairs hshort
  · rcases fcgiEnvAdd_cases env key val with hadd | ⟨k, v, -, -, -, hadd⟩
    · rw [hadd]
    · rw [hadd] at hfails
      cases hfails

end Lighttpd
