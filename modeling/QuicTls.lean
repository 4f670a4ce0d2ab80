import QuicTls.Verify.KeySchedule.Exporter
import QuicTls.Verify.Quic.Level
import QuicTls.Verify.Statem.Client13
import QuicTls.Verify.Statem.ServerAuth
import QuicTls.Verify.Handshake12.Agreement
import QuicTls.Verify.KeyUpdate.InStep
import QuicTls.Verify.Packet.RoundTrip
import QuicTls.Verify.Record.Replay
import QuicTls.Verify.Record.Padding
import QuicTls.Verify.Record.Digest
import QuicTls.Verify.Record.EarlyData
import QuicTls.Verify.Record.InnerPlaintext
import QuicTls.Verify.Record.Sequence
import QuicTls.Verify.Record.RetryWrite
import QuicTls.Verify.Lhash.Map
import QuicTls.Verify.X509.Check
import QuicTls.Verify.X509.Ncons
import QuicTls.Verify.X509.AddrPath
import QuicTls.Verify.X509.Uri
import QuicTls.Verify.X509.AddrSubset
import QuicTls.Verify.Bn.Mont
import QuicTls.Verify.Record.ReadFraming
import QuicTls.Verify.Dtls.Retransmit
import QuicTls.Verify.Packet.Sizing
import QuicTls.Verify.DerWriter
import QuicTls.Verify.Punycode
import QuicTls.Verify.Bn.Recp
import QuicTls.Verify.Bn.Prime
import QuicTls.Verify.Asn1Dsa
import QuicTls.Verify.Asn1Object
import QuicTls.Verify.Asn1Time
import QuicTls.Verify.Stack
import QuicTls.Verify.Property
import QuicTls.Verify.Sess
import QuicTls.Verify.Dtls.Network
import QuicTls.Verify.Bn.Agree
