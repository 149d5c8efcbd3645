import HashAccelerator.Algorithm
import HashAccelerator.BigEndian
/-!
# The standard's examples

Example messages of the standard with their digests: for each algorithm "abc", the empty message,
and a message that needs a second block. The last is a row of overlapping runs of the alphabet, of
four letters for the algorithms on 32-bit words and of eight for those on 64-bit words.
-/

namespace HashAccelerator

/-- A message and the digest it has to have. -/
structure ExampleDigest where
  algorithm : Algorithm
  message : List UInt8
  digest : List UInt8
  deriving DecidableEq

namespace ExampleDigest

/-- The message "abc". -/
def abc : List UInt8 := [0x61, 0x62, 0x63]

/-- Fourteen runs of the alphabet, each beginning one letter later than the one before. -/
def alphabetRuns (width : Nat) : List UInt8 :=
  (List.range 14).flatMap fun first =>
    (List.range width).map fun i => UInt8.ofNat (0x61 + first + i)

/-- The example whose digest has the given words. -/
def ofWords (algorithm : Algorithm) (message : List UInt8) (digest : List UInt32) :
    ExampleDigest where
  algorithm
  message
  digest := digest.flatMap BigEndian.bytes32

/-- The examples, three for each algorithm. -/
def all : List ExampleDigest := [
  ofWords .sha1 abc
    [0xa9993e36, 0x4706816a, 0xba3e2571, 0x7850c26c, 0x9cd0d89d],
  ofWords .sha1 []
    [0xda39a3ee, 0x5e6b4b0d, 0x3255bfef, 0x95601890, 0xafd80709],
  ofWords .sha1 (alphabetRuns 4)
    [0x84983e44, 0x1c3bd26e, 0xbaae4aa1, 0xf95129e5, 0xe54670f1],
  ofWords .sha224 abc
    [0x23097d22, 0x3405d822, 0x8642a477, 0xbda255b3, 0x2aadbce4, 0xbda0b3f7, 0xe36c9da7],
  ofWords .sha224 []
    [0xd14a028c, 0x2a3a2bc9, 0x476102bb, 0x288234c4, 0x15a2b01f, 0x828ea62a, 0xc5b3e42f],
  ofWords .sha224 (alphabetRuns 4)
    [0x75388b16, 0x512776cc, 0x5dba5da1, 0xfd890150, 0xb0c6455c, 0xb4f58b19, 0x52522525],
  ofWords .sha256 abc
    [0xba7816bf, 0x8f01cfea, 0x414140de, 0x5dae2223, 0xb00361a3, 0x96177a9c, 0xb410ff61, 0xf20015ad],
  ofWords .sha256 []
    [0xe3b0c442, 0x98fc1c14, 0x9afbf4c8, 0x996fb924, 0x27ae41e4, 0x649b934c, 0xa495991b, 0x7852b855],
  ofWords .sha256 (alphabetRuns 4)
    [0x248d6a61, 0xd20638b8, 0xe5c02693, 0x0c3e6039, 0xa33ce459, 0x64ff2167, 0xf6ecedd4, 0x19db06c1],
  ofWords .sha384 abc
    [0xcb00753f, 0x45a35e8b, 0xb5a03d69, 0x9ac65007, 0x272c32ab, 0x0eded163, 0x1a8b605a, 0x43ff5bed,
      0x8086072b, 0xa1e7cc23, 0x58baeca1, 0x34c825a7],
  ofWords .sha384 []
    [0x38b060a7, 0x51ac9638, 0x4cd9327e, 0xb1b1e36a, 0x21fdb711, 0x14be0743, 0x4c0cc7bf, 0x63f6e1da,
      0x274edebf, 0xe76f65fb, 0xd51ad2f1, 0x4898b95b],
  ofWords .sha384 (alphabetRuns 8)
    [0x09330c33, 0xf71147e8, 0x3d192fc7, 0x82cd1b47, 0x53111b17, 0x3b3b05d2, 0x2fa08086, 0xe3b0f712,
      0xfcc7c71a, 0x557e2db9, 0x66c3e9fa, 0x91746039],
  ofWords .sha512 abc
    [0xddaf35a1, 0x93617aba, 0xcc417349, 0xae204131, 0x12e6fa4e, 0x89a97ea2, 0x0a9eeee6, 0x4b55d39a,
      0x2192992a, 0x274fc1a8, 0x36ba3c23, 0xa3feebbd, 0x454d4423, 0x643ce80e, 0x2a9ac94f, 0xa54ca49f],
  ofWords .sha512 []
    [0xcf83e135, 0x7eefb8bd, 0xf1542850, 0xd66d8007, 0xd620e405, 0x0b5715dc, 0x83f4a921, 0xd36ce9ce,
      0x47d0d13c, 0x5d85f2b0, 0xff8318d2, 0x877eec2f, 0x63b931bd, 0x47417a81, 0xa538327a, 0xf927da3e],
  ofWords .sha512 (alphabetRuns 8)
    [0x8e959b75, 0xdae313da, 0x8cf4f728, 0x14fc143f, 0x8f7779c6, 0xeb9f7fa1, 0x7299aead, 0xb6889018,
      0x501d289e, 0x4900f7e4, 0x331b99de, 0xc4b5433a, 0xc7d329ee, 0xb6dd2654, 0x5e96e55b, 0x874be909]]

end ExampleDigest

end HashAccelerator
