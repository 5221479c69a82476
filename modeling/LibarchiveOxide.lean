import LibarchiveOxide.Apk.DigestsExact
import LibarchiveOxide.Apk.VerityFile
import LibarchiveOxide.Ar.RoundTrip
import LibarchiveOxide.Async.Cancellation
import LibarchiveOxide.Async.FrameEncoder
import LibarchiveOxide.Async.Probe
import LibarchiveOxide.Cab.Checksum
import LibarchiveOxide.Cab.History
import LibarchiveOxide.Codecs.BcjX86
import LibarchiveOxide.Codecs.Decryption
import LibarchiveOxide.Codecs.Delta
import LibarchiveOxide.Codecs.Frames
import LibarchiveOxide.Codecs.Gzip
import LibarchiveOxide.Cpio.RoundTrip
import LibarchiveOxide.Extract.Claims
import LibarchiveOxide.Extract.Report
import LibarchiveOxide.Filter.LzipAccepts
import LibarchiveOxide.Filter.MemoryGate
import LibarchiveOxide.Formats.Events
import LibarchiveOxide.Formats.Probing
import LibarchiveOxide.Formats.Times
import LibarchiveOxide.Formats.Refusals
import LibarchiveOxide.Iso.Links
import LibarchiveOxide.Iso.Volume
import LibarchiveOxide.Jar.Folding
import LibarchiveOxide.Oci.CallProtocol
import LibarchiveOxide.Oci.Layer
import LibarchiveOxide.Oci.Markers
import LibarchiveOxide.Oci.Symlinks
import LibarchiveOxide.Oci.Whiteouts
import LibarchiveOxide.Package.DerNesting
import LibarchiveOxide.Package.WheelCoverage
import LibarchiveOxide.Range.Reader
import LibarchiveOxide.Range.Volumes
import LibarchiveOxide.SevenZip.Digests
import LibarchiveOxide.SevenZip.Primitives
import LibarchiveOxide.SevenZip.Resolving
import LibarchiveOxide.Stream.Budgeted
import LibarchiveOxide.Tar.Extended
import LibarchiveOxide.Tar.Numeric
import LibarchiveOxide.Tar.PaxRoundTrip
import LibarchiveOxide.Tar.Retention
import LibarchiveOxide.Udf.Resuming
import LibarchiveOxide.Xar.Exactness
import LibarchiveOxide.Xar.Inflation
import LibarchiveOxide.Zip.Locating
